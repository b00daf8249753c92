import Componentry.Proofs.Snippet.Slices
import Mathlib.Data.List.Infix

/-!
# Where tokens stand

`locationAfter` is the place in a text that comes after some of its bytes: lines are counted by line
feeds, and columns by the bytes since the last of them. Scanning keeps its own count, and starts a
new line only for a line feed that is a piece of its own.

The two counts agree as long as no piece hides a line feed. Only a quoted text can: behind a
backslash a line feed is taken as an escape, and the line goes on (`Slice.lineFeed_mem`). So the
location of a token is the true one exactly if no quoted text before it is broken over lines in
this way (`token_location`); after one that is, every line is too small.
-/

namespace Componentry.Snippet

open Text List

variable {before : Bytes}

/-! ## Places in a text -/

/-- The location just after the bytes `before` of a text. -/
def locationAfter (before : Bytes) : Location where
  line := 1 + before.count lineFeed
  column := 1 + (before.reverse.takeWhile (· ≠ lineFeed)).length

theorem locationAfter_append {bs : Bytes} (h : lineFeed ∉ bs) :
    locationAfter (before ++ bs) = (locationAfter before).advance bs.length := by
  have hbs : ∀ b ∈ bs.reverse, decide (b ≠ lineFeed) = true := by
    intro b hb
    rw [decide_eq_true_iff]
    rintro rfl
    exact h (mem_reverse.1 hb)
  unfold locationAfter Location.advance
  rw [count_append, count_eq_zero_of_not_mem h, reverse_append,
    takeWhile_append_of_pos hbs, length_append, length_reverse, Nat.add_zero]
  simp only [Location.mk.injEq, true_and]
  omega

theorem locationAfter_lineFeed (before : Bytes) :
    locationAfter (before ++ [lineFeed]) = (locationAfter before).nextLine := by
  unfold locationAfter Location.nextLine
  rw [count_append, reverse_append]
  simp
  omega

/-! ## Line feeds in slices -/

/-- A line feed between quotes comes behind a backslash. -/
theorem QuotedBody.lineFeed_mem {quote : UInt8} {body value : Bytes}
    (h : QuotedBody quote body value) (hline : lineFeed ∈ body) :
    ∃ before after, body = before ++ 92 :: lineFeed :: after := by
  induction h with
  | nil => cases hline
  | @plain b body value _ hb _ _ ih =>
    obtain ⟨before, after, rfl⟩ := ih ((mem_cons.1 hline).resolve_left hb.symm)
    exact ⟨b :: before, after, rfl⟩
  | @escape e body value _ ih =>
    rcases mem_cons.1 hline with hslash | hline
    · cases hslash
    rcases mem_cons.1 hline with rfl | hline
    · exact ⟨[], body, rfl⟩
    · obtain ⟨before, after, rfl⟩ := ih hline
      exact ⟨92 :: e :: before, after, rfl⟩

/-- The bytes are those of a quoted text with a line feed behind a backslash. -/
def HidesLine (slice : Bytes) : Prop :=
  ∃ quote before after, quote ∈ [34, 39] ∧ slice = quote :: (before ++ 92 :: lineFeed :: after)

/-- A line feed is a slice of its own, or it is escaped in a quoted text. -/
theorem Slice.lineFeed_mem {next slice : Bytes} {content : Content} (h : Slice next content slice)
    (hline : lineFeed ∈ slice) : slice = [lineFeed] ∨ HidesLine slice := by
  cases h with
  | blank hb =>
    obtain rfl := mem_singleton.1 hline
    exact Or.inl rfl
  | comment htext hnext =>
    have hslash : lineFeed ≠ 47 := by decide
    simp only [mem_cons, hslash, false_or] at hline
    exact absurd hline htext
  | @quoted quote body value hquote hbody =>
    have hne : lineFeed ≠ quote := by
      rintro rfl
      exact absurd hquote (by decide)
    simp only [mem_cons, mem_append, not_mem_nil, hne, false_or, or_false] at hline
    obtain ⟨before, after, rfl⟩ := hbody.lineFeed_mem hline
    exact Or.inr ⟨quote, before, after ++ [quote], hquote, by simp⟩
  | @unterminated quote body value last opened hquote hbody hnext hlast =>
    have hne : lineFeed ≠ quote := by
      rintro rfl
      exact absurd hquote (by decide)
    have hnotLast : lineFeed ∉ last := by
      rcases hlast with rfl | ⟨rfl, -⟩ <;> decide
    simp only [mem_cons, mem_append, hne, hnotLast, false_or, or_false] at hline
    obtain ⟨before, after, rfl⟩ := hbody.lineFeed_mem hline
    exact Or.inr ⟨quote, before, after ++ last, hquote, by simp⟩
  | number hfirst hmore hcase | word hfirst hmore hnext =>
    rcases mem_cons.1 hline with rfl | hline
    · exact absurd hfirst (by decide)
    · exact absurd (hmore _ hline) (by decide)
  | mark m =>
    refine absurd hline ?_
    cases m <;> decide
  | unexpected hb =>
    obtain rfl := mem_singleton.1 hline
    cases hb

theorem HidesLine.mem {slice : Bytes} (h : HidesLine slice) :
    lineFeed ∈ slice ∧ slice ≠ [lineFeed] := by
  obtain ⟨quote, before, after, -, rfl⟩ := h
  exact ⟨by simp, by simp⟩

/-! ## One piece -/

/-- The number of line feeds in a piece that start no line. -/
def Piece.hidden (p : Piece) : Nat := if p.span = [lineFeed] then 0 else p.span.count lineFeed

theorem Piece.hidden_eq_zero_iff {p : Piece} {next : Bytes} (h : Slice next p.content p.span) :
    p.hidden = 0 ↔ ¬ HidesLine p.span := by
  unfold Piece.hidden
  by_cases hline : p.span = [lineFeed]
  · rw [if_pos hline]
    exact iff_of_true rfl fun hhides => hhides.mem.2 hline
  · rw [if_neg hline, count_eq_zero, not_iff_not]
    exact ⟨fun hmem => (h.lineFeed_mem hmem).resolve_left hline, fun hhides => hhides.mem.1⟩

/-- A piece counts the lines that it does not hide. -/
theorem Piece.line_stop_add (p : Piece) :
    p.stop.line + p.hidden = p.loc.line + p.span.count lineFeed := by
  unfold Piece.stop Piece.hidden
  by_cases hline : p.span = [lineFeed]
  · rw [if_pos hline, if_pos hline, hline, count_singleton_self]
    exact Int.add_zero _
  · rw [if_neg hline, if_neg hline]
    rfl

/-- After a piece that hides no line the location is the true one if it was before. -/
theorem Piece.stop_eq {p : Piece} (hloc : p.loc = locationAfter before) (hhidden : p.hidden = 0) :
    p.stop = locationAfter (before ++ p.span) := by
  unfold Piece.stop
  unfold Piece.hidden at hhidden
  by_cases hline : p.span = [lineFeed]
  · rw [if_pos hline, hline, locationAfter_lineFeed, hloc]
  · rw [if_neg hline, count_eq_zero] at hhidden
    rw [if_neg hline, locationAfter_append hhidden, hloc]

/-! ## Pieces one after the other -/

/-- The bytes of pieces. -/
def spansOf (ps : List Piece) : Bytes := ps.flatMap Piece.span

/-- The number of line feeds in pieces that start no line. -/
def hiddenLines : List Piece → Nat
  | [] => 0
  | p :: ps => p.hidden + hiddenLines ps

theorem spansOf_cons (p : Piece) (ps : List Piece) : spansOf (p :: ps) = p.span ++ spansOf ps := rfl

theorem hiddenLines_cons (p : Piece) (ps : List Piece) :
    hiddenLines (p :: ps) = p.hidden + hiddenLines ps := rfl

/-- Scanned pieces, the first of which starts at a location and every other one where the one before
it stops; the last one stops at the other location. -/
inductive Passes : Location → List Piece → Location → Prop
  | nil (loc : Location) : Passes loc [] loc
  | cons {p : Piece} {ps : List Piece} {next : Bytes} {stop : Location}
      (hslice : Slice next p.content p.span) (h : Passes p.stop ps stop) :
      Passes p.loc (p :: ps) stop

namespace Passes

variable {loc stop : Location} {ps : List Piece}

theorem line_add (h : Passes loc ps stop) :
    stop.line + hiddenLines ps = loc.line + (spansOf ps).count lineFeed := by
  induction h with
  | nil loc => rfl
  | @cons p ps next stop hslice h ih =>
    have hpiece := p.line_stop_add
    rw [hiddenLines_cons, spansOf_cons, count_append]
    omega

/-- Where no line is hidden, the location stays the true one. -/
theorem eq_locationAfter (h : Passes loc ps stop) (hloc : loc = locationAfter before)
    (hhidden : hiddenLines ps = 0) : stop = locationAfter (before ++ spansOf ps) := by
  induction h generalizing before with
  | nil loc => rw [hloc, spansOf, flatMap_nil, append_nil]
  | @cons p ps next stop hslice h ih =>
    rw [hiddenLines_cons] at hhidden
    rw [spansOf_cons, ← append_assoc]
    exact ih (p.stop_eq hloc (by omega)) (by omega)

theorem hiddenLines_eq_zero_iff (h : Passes loc ps stop) :
    hiddenLines ps = 0 ↔ ∀ p ∈ ps, ¬ HidesLine p.span := by
  induction h with
  | nil loc => exact iff_of_true rfl (by simp)
  | cons hslice h ih =>
    rw [hiddenLines_cons, Nat.add_eq_zero_iff, Piece.hidden_eq_zero_iff hslice, ih, forall_mem_cons]

/-- Each hidden line feed makes the line one too small, so the location is the true one exactly if
there is none. -/
theorem eq_locationAfter_iff (h : Passes Location.start ps stop) :
    stop = locationAfter (spansOf ps) ↔ ∀ p ∈ ps, ¬ HidesLine p.span := by
  rw [← h.hiddenLines_eq_zero_iff]
  constructor
  · intro hstop
    have hline := h.line_add
    rw [hstop, locationAfter, Location.start] at hline
    dsimp only at hline
    omega
  · intro hhidden
    have hstart : Location.start = locationAfter [] := rfl
    exact h.eq_locationAfter hstart hhidden

theorem getLast? (h : Passes loc ps stop) : (ps.getLast?.map Piece.stop).getD loc = stop := by
  induction h with
  | nil loc => rfl
  | @cons p ps next stop hslice h ih =>
    cases ps with
    | nil => exact ih
    | cons q qs =>
      -- the last piece is the same, and there is one
      rw [getLast?_cons_cons, ← ih, getLast?_eq_some_getLast (cons_ne_nil q qs)]
      rfl

end Passes

/-- The first pieces of a text, and what is scanned after them. -/
theorem scanFrom_passes {loc : Location} {bs : Bytes} {ps qs : List Piece}
    (h : scanFrom loc bs = ps ++ qs) :
    ∃ stop rest, Passes loc ps stop ∧ bs = spansOf ps ++ rest ∧ qs = scanFrom stop rest := by
  induction ps generalizing loc bs with
  | nil => exact ⟨loc, bs, .nil loc, rfl, h.symm⟩
  | cons p ps ih =>
    cases bs with
    | nil =>
      rw [scanFrom] at h
      cases h
    | cons b rest =>
      rcases hpiece : pieceAt loc b rest with ⟨content, n⟩
      rw [scanFrom, hpiece, cons_append, List.cons.injEq] at h
      obtain ⟨rfl, htail⟩ := h
      obtain ⟨stop, left, hpasses, hrest, hqs⟩ := ih htail
      refine ⟨stop, left, .cons (pieceAt_slice hpiece) hpasses, ?_, hqs⟩
      rw [spansOf_cons, append_assoc, ← hrest, cons_append, take_append_drop]

/-! ## Tokens -/

/-- The token is scanned after the pieces, or it is the end mark after all of them. -/
inductive TokenAfter (source : Bytes) : List Piece → Token → Prop
  | scanned {ps qs : List Piece} {p : Piece} {t : Token} (hscan : scan source = ps ++ p :: qs)
      (htoken : p.token? = some t) : TokenAfter source ps t
  | ended : TokenAfter source (scan source) (endMark (scan source))

theorem exists_tokenAfter {source : Bytes} {t : Token} (ht : t ∈ tokens source) :
    ∃ ps, TokenAfter source ps t := by
  rcases mem_append.1 ht with ht | ht
  · obtain ⟨p, hp, htoken⟩ := mem_filterMap.1 ht
    obtain ⟨ps, qs, hscan⟩ := append_of_mem hp
    exact ⟨ps, .scanned hscan htoken⟩
  · rw [mem_singleton.1 ht]
    exact ⟨_, .ended⟩

/-- The bytes of a token come after those of the pieces, and its location is where these stop. -/
theorem TokenAfter.passes {source : Bytes} {ps : List Piece} {t : Token}
    (h : TokenAfter source ps t) :
    Passes Location.start ps t.loc ∧ spansOf ps ++ t.lexeme <+: source := by
  cases h with
  | @scanned _ qs p _ hscan htoken =>
    obtain ⟨stop, rest, hpasses, hsource, hnext⟩ := scanFrom_passes hscan
    -- the next piece starts where the pieces stop, with the bytes that are left
    have hfirst : scanFrom stop rest = [p] ++ qs := hnext.symm
    obtain ⟨stop', rest', hpiece, rfl, -⟩ := scanFrom_passes hfirst
    unfold Piece.token? at htoken
    split at htoken
    · cases htoken
      cases hpiece
      refine ⟨hpasses, rest', ?_⟩
      rw [hsource, spansOf_cons, append_assoc, append_assoc]
      rfl
    · cases htoken
  | ended =>
    have hall : scanFrom Location.start source = scan source ++ [] := (append_nil _).symm
    obtain ⟨stop, rest, hpasses, hsource, -⟩ := scanFrom_passes hall
    refine ⟨?_, rest, ?_⟩
    · rw [← hpasses.getLast?] at hpasses
      exact hpasses
    · rw [append_assoc]
      exact hsource.symm

/-- **Where tokens stand.** Every token, the end mark included, starts in the text right after the
pieces before it. Its line is one more than the number of line feeds before it, less those that are
hidden in quoted texts; and its location is the true one exactly if no quoted text before it holds a
line feed behind a backslash. So all locations are true in a text without such a pair of bytes. -/
theorem token_location (source : Bytes) : (∀ t ∈ tokens source, ∃ ps, TokenAfter source ps t) ∧
      (∀ ps t, TokenAfter source ps t → spansOf ps ++ t.lexeme <+: source ∧
        t.loc.line + hiddenLines ps = 1 + (spansOf ps).count lineFeed ∧
        (t.loc = locationAfter (spansOf ps) ↔ ∀ p ∈ ps, ¬ HidesLine p.span)) ∧
      (¬ [92, lineFeed] <:+: source → ∀ ps t, TokenAfter source ps t →
        t.loc = locationAfter (spansOf ps)) := by
  have hplace : ∀ ps t, TokenAfter source ps t → (t.loc = locationAfter (spansOf ps) ↔
      ∀ p ∈ ps, ¬ HidesLine p.span) := fun ps t h => h.passes.1.eq_locationAfter_iff
  refine ⟨fun t ht => exists_tokenAfter ht, fun ps t h => ⟨h.passes.2, h.passes.1.line_add,
    hplace ps t h⟩, fun hsource ps t h => (hplace ps t h).2 ?_⟩
  rintro p hp ⟨quote, before, after, -, hspan⟩
  have hpair : [92, lineFeed] <:+: p.span := ⟨quote :: before, after, by rw [hspan]; simp⟩
  have hpiece : p.span <:+: spansOf ps ++ t.lexeme := by
    obtain ⟨qs, rs, rfl⟩ := append_of_mem hp
    exact ⟨spansOf qs, spansOf rs ++ t.lexeme, by simp [spansOf]⟩
  exact hsource ((hpair.trans hpiece).trans h.passes.2.isInfix)

/-- Behind a quoted text with an escaped line feed, a word is counted on the first line and stands
on the second; in a text without a backslash the second line is counted. -/
theorem token_location_broken :
    (∃ ps t, TokenAfter (utf8 "\"a\\\nb\" c") ps t ∧ t.kind = .word "c" ∧ t.loc = ⟨1, 8⟩ ∧
      locationAfter (spansOf ps) = ⟨2, 4⟩ ∧ ∃ p ∈ ps, HidesLine p.span) ∧
    ¬ [92, lineFeed] <:+: utf8 "a\n \"b\"" ∧ ∃ ps t, TokenAfter (utf8 "a\n \"b\"") ps t ∧
      t.kind = .quoted "b" ∧ t.loc = ⟨2, 2⟩ ∧ t.loc = locationAfter (spansOf ps) := by
  have hbroken : scan (utf8 "\"a\\\nb\" c") =
      [⟨.token (.quoted "a\\\nb"), [34, 97, 92, 10, 98, 34], ⟨1, 1⟩⟩, ⟨.blank, [32], ⟨1, 7⟩⟩] ++
        ⟨.token (.word "c"), [99], ⟨1, 8⟩⟩ :: [] := by decide +kernel
  have hplain : scan (utf8 "a\n \"b\"") =
      [⟨.token (.word "a"), [97], ⟨1, 1⟩⟩, ⟨.blank, [10], ⟨1, 2⟩⟩, ⟨.blank, [32], ⟨2, 1⟩⟩] ++
        ⟨.token (.quoted "b"), [34, 98, 34], ⟨2, 2⟩⟩ :: [] := by decide +kernel
  have hpair : ¬ [92, lineFeed] <:+: utf8 "a\n \"b\"" := by decide +kernel
  refine ⟨⟨_, _, .scanned hbroken rfl, rfl, rfl, by decide, ?_⟩, hpair, _, _, .scanned hplain rfl,
    rfl, rfl, (token_location _).2.2 hpair _ _ (.scanned hplain rfl)⟩
  have hplace := ((token_location _).2.1 _ _ (.scanned hbroken rfl)).2.2
  by_contra hnone
  exact absurd (hplace.2 fun p hp hhides => hnone ⟨p, hp, hhides⟩) (by decide)

end Componentry.Snippet
