import Componentry.Proofs.Snippet.Slices
import Componentry.Proofs.Snippet.Uniform

/-!
# The outcome of reading a snippet

What follows from the grammar going in step with itself:

* reading comes to an end on every list of tokens that ends in an end mark, and unrolling the
  grammar further changes nothing (`reading_ends`);
* a snippet without scan faults is read as a whole and without a complaint, or nothing is given and
  there is one complaint, about one of its tokens (`parse_outcome`);
* where a snippet stands changes the locations of what is read and nothing else (`read_shifted`).
-/

namespace Componentry

open Snippet Text List

variable {bs : Bytes}

variable {α : Type} {f : Location → Location} {src ts : List Token} {φ : α → α} {k n : Nat}

/-! ## Whole snippets -/

theorem whole_apply (m : Step (Option α)) (s : Desk) :
    whole m s = (if (finish (m s).2).2.complaints = [] then (m s).1 else none,
      (finish (m s).2).2) := by
  change (if (finish (m s).2).2.complaints = [] then (pure (m s).1 : Step (Option α)) else
    pure none) (finish (m s).2).2 = _
  split
  · rfl
  · rfl

/-- Where something was complained about, nothing is given and what is left is not looked at. -/
theorem whole_of_refused {m : Step (Option α)} {s left : Desk} (h : m s = (none, left))
    (hleft : left.complaints ≠ []) : whole m s = (none, left) := by
  have hfinish : finish left = ((), left) := by
    change (if left.complaints = [] then _ else (pure () : Step Unit)) left = _
    rw [if_neg hleft]
    rfl
  rw [whole_apply, h, hfinish, if_neg hleft]

/-- The end of a snippet that was read as `a` without a complaint. -/
def closing (a : α) : Step (Option α) := do
  let _ ← accept .semicolon
  let t ← peek
  if t.kind = .done then return some a else complain .trailing t

theorem closing_apply (a : α) (s : Desk) :
    closing a s = (if ((accept .semicolon s).2.tokens.headD noToken).kind = .done then
      pure (some a) else complain .trailing ((accept .semicolon s).2.tokens.headD noToken) :
        Step (Option α)) (accept .semicolon s).2 := rfl

theorem accept_complaints (q : Punct) (s : Desk) : (accept q s).2.complaints = s.complaints := by
  change ((if (s.tokens.headD noToken).isPunct q then (do let _ ← advance; return true)
    else return false : Step Bool) s).2.complaints = _
  split
  · change (advance s).2.complaints = _
    unfold advance
    split
    · rfl
    · split <;> rfl
  · rfl

theorem whole_of_given {m : Step (Option α)} {s desk : Desk} {a : α} (h : m s = (some a, desk))
    (hdesk : desk.complaints = []) : whole m s = closing a desk := by
  have hquiet := (accept_complaints .semicolon desk).trans hdesk
  generalize hleft : (accept .semicolon desk).2 = left at hquiet
  have hfinish : finish desk = (if (left.tokens.headD noToken).kind ≠ .done then
      note .trailing (left.tokens.headD noToken) else pure () : Step Unit) left := by
    change (if desk.complaints = [] then _ else (pure () : Step Unit)) desk = _
    rw [if_pos hdesk, ← hleft]
    rfl
  rw [whole_apply, h, hfinish, closing_apply, hleft]
  by_cases hdone : (left.tokens.headD noToken).kind = .done
  · rw [if_neg (not_not.2 hdone), if_pos hdone]
    exact congrArg (·, left) (if_pos hquiet)
  · rw [if_pos hdone, if_neg hdone]
    exact congrArg (·, _) (if_neg (show left.complaints ++ [_] ≠ [] by simp))

theorem closing_inStep {p : Pass} {S : Form α} {a : α} (ha : p.clean → S.Proper a) :
    p.Follows S k (closing a) (closing (S.move p.move a)) := by
  refine .accept_any fun _ => .peek fun t s _ => ?_
  exact Pass.both_ite (fun _ => .of_follows (.pure rfl ha)) fun _ => .complain

/-- What is left after a closed snippet begins with the end mark. -/
theorem head_of_closing {a b : α} {s left : Desk} (h : closing a s = (some b, left)) :
    (left.tokens.headD noToken).kind = .done := by
  rw [closing_apply] at h
  split at h
  · rename_i hdone
    cases h
    exact hdone
  · cases h

/-- Reading whole snippets by rules that go in step. -/
theorem whole_agree {p : Pass} {S : Form α} {m m' : Step (Option α)} (h : p.Advances S k m m')
    (hts : Reached p.src ts) (hk : ts.length < k) :
    p.Agree S ts.length [] (whole m ⟨ts, []⟩) (whole m' (Desk.move p.move ⟨ts, []⟩)) := by
  have hm := h ts hts hk []
  generalize hr : m ⟨ts, []⟩ = r at hm
  generalize hr' : m' (Desk.move p.move ⟨ts, []⟩) = r' at hm
  cases hm with
  | @given a rest hrest hn ha =>
    rw [whole_of_given hr rfl, whole_of_given hr' rfl]
    exact (closing_inStep ha rest hrest (Nat.lt_succ_self _) []).mono hn
  | refused ht =>
    rw [whole_of_refused hr (cons_ne_nil _ _), whole_of_refused hr' (cons_ne_nil _ _)]
    exact .refused ht

/-- What is left after a whole snippet that was read begins with the end mark. -/
theorem head_of_whole {p : Pass} {S : Form α} {m m' : Step (Option α)} {a : α} {left : Desk}
    (h : p.Advances S k m m') (hts : Reached p.src ts) (hk : ts.length < k)
    (hwhole : whole m ⟨ts, []⟩ = (some a, left)) : (left.tokens.headD noToken).kind = .done := by
  have hm := h ts hts hk []
  generalize hr : m ⟨ts, []⟩ = r at hm
  generalize m' (Desk.move p.move ⟨ts, []⟩) = r' at hm
  cases hm with
  | given =>
    rw [whole_of_given hr rfl] at hwhole
    exact head_of_closing hwhole
  | refused =>
    rw [whole_of_refused hr (cons_ne_nil _ _)] at hwhole
    cases hwhole

theorem Token.map_move_id (ts : List Token) : ts.map (Token.move id) = ts := map_id ts

/-- The outcome of reading all of `ts` by the rule of an entry, with the grammar unrolled `n`
times. -/
def Entry.run (x : Entry) (n : Nat) (ts : List Token) : Option x.Tree × Desk :=
  whole (x.rule (grammar n)) ⟨ts, []⟩

/-- Reading moved tokens goes in step with reading the tokens, however far the grammar is unrolled
beyond their number. -/
theorem Entry.run_agree (x : Entry) {p : Pass} (hsrc : Ended p.src) {n' : Nat}
    (hn : p.src.length ≤ n) (hn' : p.src.length ≤ n') :
    p.Agree x.form p.src.length [] (x.run n p.src) (x.run n' (p.src.map (Token.move p.move))) :=
  whole_agree ((p.grammar_inStep hn hn').entry x) (.start hsrc) (Nat.lt_succ_self _)

theorem Entry.run_along (x : Entry) (f : Location → Location) (hts : Ended ts) {n' : Nat}
    (hn : ts.length ≤ n) (hn' : ts.length ≤ n') : (Pass.along f ts).Agree x.form ts.length []
      (x.run n ts) (x.run n' (ts.map (Token.move f))) :=
  x.run_agree hts hn hn'

/-- The two outcomes of reading: a tree is given, no complaint was made, and all tokens up to the
first end mark are taken; or nothing is given and there is one complaint, about one of them or the
end mark itself. -/
theorem run_cases (x : Entry) (hts : Ended ts) (hn : ts.length ≤ n) :
    (∃ a used t rest, x.run n ts = (some a, ⟨t :: rest, []⟩) ∧ ts = used ++ t :: rest ∧
      t.kind = .done ∧ ∀ u ∈ used, u.kind ≠ .done) ∨
    ∃ why used t rest left, x.run n ts = (none, ⟨left, [.about why t]⟩) ∧
      ts = used ++ t :: rest ∧ ∀ u ∈ used, u.kind ≠ .done := by
  -- a run put beside itself has one of the two outcomes on which runs agree
  have h := x.run_along id hts hn hn
  generalize hr : x.run n ts = r at h
  generalize x.run n (ts.map (Token.move id)) = r' at h
  cases h with
  | @given a rest hrest hlen _ =>
    obtain ⟨t, us, rfl⟩ := hrest.exists_cons
    obtain ⟨used, hused, hdone⟩ := hrest.passed
    have hhead := head_of_whole (((Pass.along id ts).grammar_inStep hn hn).entry x) (.start hts)
      (Nat.lt_succ_self _) hr
    exact Or.inl ⟨a, used, t, us, rfl, hused.symm, hhead, hdone⟩
  | @refused why t us left ht =>
    obtain ⟨used, hused, hdone⟩ := ht.passed
    exact Or.inr ⟨why, used, t, us, left, rfl, hused.symm, hdone⟩

/-- Reading ends on every list of tokens that ends in an end mark, well-formed or not.

The rules need to fall back on one another no deeper than there are tokens, and what they do is the
same with every greater bound; no loop makes more rounds than one for each token that is left and
one to stop, since it would give nothing without a complaint. No end mark is passed. The reason is
the last part: what the rules do with `k` tokens hangs only on what they do with fewer, where they
take at least one token if they succeed. -/
theorem reading_ends (x : Entry) {ts : List Token} (hts : Ended ts) :
    (∀ n, ts.length ≤ n → x.run n ts = x.run ts.length ts) ∧
    ((∃ a used t rest, x.run ts.length ts = (some a, ⟨t :: rest, []⟩) ∧ ts = used ++ t :: rest ∧
        t.kind = .done ∧ ∀ u ∈ used, u.kind ≠ .done) ∨
      ∃ why used t rest left, x.run ts.length ts = (none, ⟨left, [.about why t]⟩) ∧
        ts = used ++ t :: rest ∧ ∀ u ∈ used, u.kind ≠ .done) ∧
    ∀ p : Pass, p.src = ts → ∀ k g g', p.Rules k g g' →
      p.Rules (k + 1) g.unrolled g'.unrolled ∧
        p.Advances x.form (k + 1) (x.rule g) (x.rule g') := by
  refine ⟨fun n hn => ?_, run_cases x hts le_rfl, fun p _ k g g' h => ⟨h.unrolled, h.entry x⟩⟩
  have hself := (x.run_along id hts hn hn).eq_move
  have hsame := (x.run_along id hts hn le_rfl).eq_move
  rw [Token.map_move_id] at hself hsame
  exact hself.trans hsame.symm

/-- An opened parenthesis, an end mark, and tokens behind it that are never looked at. -/
theorem reading_ends_early :
    Ended [⟨.punct .lparen, [40], ⟨1, 1⟩⟩, ⟨.done, [], ⟨1, 2⟩⟩, ⟨.word "a", [97], ⟨1, 3⟩⟩,
      ⟨.done, [], ⟨1, 4⟩⟩] ∧
    ∀ n, 4 ≤ n → Entry.run .expr n [⟨.punct .lparen, [40], ⟨1, 1⟩⟩, ⟨.done, [], ⟨1, 2⟩⟩,
      ⟨.word "a", [97], ⟨1, 3⟩⟩, ⟨.done, [], ⟨1, 4⟩⟩] =
        (none, ⟨[⟨.done, [], ⟨1, 2⟩⟩, ⟨.word "a", [97], ⟨1, 3⟩⟩, ⟨.done, [], ⟨1, 4⟩⟩],
          [⟨.expression, [], ⟨1, 2⟩⟩]⟩) := by
  have hended : Ended [⟨.punct .lparen, [40], ⟨1, 1⟩⟩, ⟨.done, [], ⟨1, 2⟩⟩,
    ⟨.word "a", [97], ⟨1, 3⟩⟩, ⟨.done, [], ⟨1, 4⟩⟩] := rfl
  exact ⟨hended, fun n hn => ((reading_ends .expr hended).1 n hn).trans rfl⟩

/-! ## Scanned snippets -/

theorem Snippet.Piece.line_stop (p : Piece) : p.loc.line ≤ p.stop.line := by
  unfold Piece.stop
  split
  · exact Int.le_add_one le_rfl
  · exact le_rfl

/-- The pieces of a text stand on the line of its start or after it. -/
theorem scanFrom_line {loc : Location} {p : Piece} (hp : p ∈ scanFrom loc bs) :
    loc.line ≤ p.loc.line := by
  induction loc, bs using scanFrom.induct with
  | case1 loc => simp [scanFrom] at hp
  | case2 loc b rest content n hpiece piece ih =>
    rw [scanFrom, hpiece] at hp
    rcases mem_cons.1 hp with rfl | hp
    · exact le_rfl
    · -- the next piece starts where this one stops
      have hstop : loc.line ≤ piece.stop.line := piece.line_stop
      exact hstop.trans (ih hp)

theorem scan_line {p : Piece} (hp : p ∈ scan bs) : 1 ≤ p.loc.line := scanFrom_line hp

theorem tokens_line {t : Token} (ht : t ∈ tokens bs) : 1 ≤ t.loc.line := by
  rcases mem_append.1 ht with ht | ht
  · obtain ⟨p, hp, ht⟩ := mem_filterMap.1 ht
    unfold Piece.token? at ht
    split at ht
    · cases ht
      exact scan_line hp
    · cases ht
  · -- the end mark stands where the last piece stops, or at the start of an empty text
    rw [mem_singleton.1 ht, endMark]
    cases hlast : (scan bs).getLast? with
    | none => exact le_rfl
    | some p => exact (scan_line (mem_of_getLast? hlast)).trans p.line_stop

theorem faults_line {e : ScanError} (he : e ∈ faults bs) : 1 ≤ e.loc.line := by
  obtain ⟨p, hp, he⟩ := mem_filterMap.1 he
  unfold Piece.fault? at he
  split at he
  · cases he
    exact scan_line hp
  · cases he

/-- The tokens of a snippet that starts at `base`. -/
def tokensAt (base : Location) (source : String) : List Token :=
  (tokens (utf8 source)).map (Token.within base)

theorem tokensAt_eq (base : Location) (source : String) : ∃ us t, tokensAt base source = us ++ [t] ∧
    t.kind = .done ∧ ∀ u ∈ us, u.kind ≠ .done := by
  obtain ⟨us, t, htokens, ht, hus⟩ := (cut_scan (utf8 source)).ends
  refine ⟨us.map (Token.within base), t.within base, ?_, ht, ?_⟩
  · rw [tokensAt, htokens, map_append, map_singleton]
  · intro u hu
    obtain ⟨u, hmem, rfl⟩ := mem_map.1 hu
    exact hus u hmem

theorem ended_tokensAt (base : Location) (source : String) : Ended (tokensAt base source) := by
  obtain ⟨us, t, htokens, ht, -⟩ := tokensAt_eq base source
  rw [htokens, Ended, getLast?_append_cons, getLast?_singleton, Option.map_some, ht]

/-- A snippet without scan faults is read by its tokens. -/
theorem parse_eq (x : Entry) {base : Location} {source : String} (h : faults (utf8 source) = []) :
    parse x.rule base source =
      ((x.run ((tokensAt base source).length + 1) (tokensAt base source)).1,
        (x.run ((tokensAt base source).length + 1) (tokensAt base source)).2.complaints) := by
  unfold Snippet.parse
  dsimp only
  rw [h, ← tokensAt]
  rfl

/-- A snippet with scan faults is refused with all of them. -/
theorem parse_faulty (x : Entry) (base : Location) {source : String}
    (h : faults (utf8 source) ≠ []) :
    parse x.rule base source = (none, (faults (utf8 source)).map (ParseError.ofScan base)) := by
  unfold Snippet.parse
  dsimp only
  split
  · rename_i hnone
    exact absurd hnone h
  · rfl

theorem verdict_eq_ok {r : Option α × List ParseError} {a : α} (h : verdict r = .ok a) :
    r = (some a, []) := by
  unfold verdict at h
  split at h
  · cases h
    rfl
  · cases h

/-- The tokens of what is read are tokens that scanning can give. -/
theorem Entry.proper_of_read (x : Entry) {base : Location} {source : String} {a : x.Tree}
    (h : read x.rule base source = .ok a) : x.form.Proper a := by
  have hparse := verdict_eq_ok h
  have hfaults : faults (utf8 source) = [] := by
    by_contra hfaults
    rw [parse_faulty x base hfaults] at hparse
    cases hparse
  have hagree := x.run_agree (p := ⟨id, tokensAt base source, True, fun _ => scanned_tokens base _⟩)
    (ended_tokensAt base source) (Nat.le_succ _) (Nat.le_succ _)
  rw [parse_eq x hfaults] at hparse
  generalize x.run ((tokensAt base source).length + 1) (tokensAt base source) = r at hparse hagree
  obtain ⟨given, desk⟩ := r
  cases (Prod.mk.inj hparse).1
  exact hagree.proper trivial

theorem Expr.proper_of_read {base : Location} {source : String} {e : Expr}
    (h : read expression base source = .ok e) : Proper e.chunks :=
  Entry.proper_of_read .expr h

theorem TypeExpr.proper_of_read {base : Location} {source : String} {t : TypeExpr}
    (h : read type base source = .ok t) : Proper t.chunks :=
  Entry.proper_of_read .type h

/-- A snippet that scans without faults is read as one tree, with no complaint and with all its
tokens up to the end mark taken; or there is no tree and one complaint, about one of its tokens,
which may be the end mark. -/
theorem parse_outcome (x : Entry) (base : Location) {source : String}
    (h : faults (utf8 source) = []) :
    (∃ a us t, parse x.rule base source = (some a, []) ∧ tokensAt base source = us ++ [t] ∧
        t.kind = .done ∧ x.run ((tokensAt base source).length + 1) (tokensAt base source) =
          (some a, ⟨[t], []⟩)) ∨
      ∃ why t, t ∈ tokensAt base source ∧
        parse x.rule base source = (none, [.about why t]) := by
  obtain ⟨us, d, htokens, -, hus⟩ := tokensAt_eq base source
  rcases run_cases x (ended_tokensAt base source) (Nat.le_succ _) with
    ⟨a, used, t, rest, hrun, hsplit, ht, -⟩ | ⟨why, used, t, rest, left, hrun, hsplit, -⟩
  · rcases eq_nil_or_concat' rest with rfl | ⟨more, d', rfl⟩
    · exact Or.inl ⟨a, used, t, by rw [parse_eq x h, hrun], hsplit, ht, hrun⟩
    · -- an end mark before the last token would be one of the tokens of the text
      rw [htokens, ← cons_append, ← append_assoc] at hsplit
      obtain ⟨rfl, -⟩ := append_inj' hsplit rfl
      exact absurd ht (hus t (by simp))
  · exact Or.inr ⟨why, t, by rw [hsplit]; simp, by rw [parse_eq x h, hrun]⟩

theorem parse_outcome_assignment :
    faults (utf8 "door.locks[0] = (key: Key) => \x7b return key.fits(-1); \x7d;") = [] ∧
    ∃ a us t, parse (Entry.rule .expr) .start
        "door.locks[0] = (key: Key) => \x7b return key.fits(-1); \x7d;" = (some a, []) ∧
      tokensAt .start "door.locks[0] = (key: Key) => \x7b return key.fits(-1); \x7d;" = us ++ [t] ∧
      t.kind = .done := by
  have hscan :
      faults (utf8 "door.locks[0] = (key: Key) => \x7b return key.fits(-1); \x7d;") = [] := by
    decide +kernel
  have hread : (parse (Entry.rule .expr) .start
      "door.locks[0] = (key: Key) => \x7b return key.fits(-1); \x7d;").1.isSome = true := by
    decide +kernel
  rcases parse_outcome .expr .start hscan with ⟨a, us, t, ha, hus, ht, -⟩ | ⟨why, t, -, hwhy⟩
  · exact ⟨hscan, a, us, t, ha, hus, ht⟩
  · rw [hwhy] at hread
    cases hread

/-! ## Snippets at another place -/

/-- The location `l` of a snippet that stands alone, if the snippet starts at `base`: on its first
line columns are counted from there, and other lines keep their columns. -/
def Location.shift (base l : Location) : Location :=
  if l.line = 1 then ⟨base.line, base.column + l.column - 1⟩
  else ⟨base.line + l.line - 1, l.column⟩

theorem Location.within_eq_shift (base : Location) {l : Location} (h : 1 ≤ l.line) :
    base.within l = base.shift l := by
  unfold Location.within Location.shift
  by_cases hl : l.line = 1
  · rw [if_pos hl, if_pos hl.le]
  · rw [if_neg hl, if_neg (by omega)]

theorem Location.start_within {l : Location} (h : 1 ≤ l.line) : Location.start.within l = l := by
  obtain ⟨line, column⟩ := l
  replace h : 1 ≤ line := h
  simp only [Location.within, Location.start]
  split
  · rw [show line = 1 by omega, show 1 + column - 1 = column by omega]
  · rw [show 1 + line - 1 = line by omega]

theorem tokensAt_start (source : String) : tokensAt .start source = tokens (utf8 source) := by
  refine (map_congr_left fun t ht => ?_).trans (map_id _)
  rw [Token.within, Location.start_within (tokens_line ht), id]

theorem tokensAt_shift (base : Location) (source : String) :
    tokensAt base source = (tokensAt .start source).map (Token.move base.shift) := by
  rw [tokensAt_start]
  refine map_congr_left fun t ht => ?_
  rw [Token.within, Token.move, base.within_eq_shift (tokens_line ht)]

theorem ofScan_shift (base : Location) {e : ScanError} (h : 1 ≤ e.loc.line) :
    ParseError.ofScan base e = (ParseError.ofScan .start e).move base.shift := by
  rw [ParseError.move, ParseError.ofScan, ParseError.ofScan, Location.start_within h,
    base.within_eq_shift h]

/-- A snippet is read alike wherever it starts: the same tree with its locations shifted, or the
same complaints about the same bytes with their locations shifted. -/
theorem read_shifted (x : Entry) (base : Location) (source : String) :
    read x.rule base source =
      ((read x.rule .start source).map (x.move base.shift)).mapError
        (List.map (ParseError.move base.shift)) := by
  have hverdict : ∀ r : Option x.Tree × List ParseError,
      verdict (r.1.map (x.move base.shift), r.2.map (ParseError.move base.shift)) =
        ((verdict r).map (x.move base.shift)).mapError (List.map (ParseError.move base.shift)) := by
    rintro ⟨_ | a, _ | ⟨e, es⟩⟩ <;> rfl
  unfold Snippet.read
  rw [← hverdict]
  congr 1
  by_cases h : faults (utf8 source) = []
  · have hlength : (tokensAt base source).length = (tokensAt .start source).length := by
      rw [tokensAt_shift, length_map]
    have hagree := (x.run_along base.shift (ended_tokensAt .start source) (Nat.le_succ _)
      (Nat.le_succ _)).eq_move
    -- both runs have the same bound, and it is beyond the number of tokens
    rw [x.move_form] at hagree
    rw [parse_eq x h, parse_eq x h, hlength, tokensAt_shift base]
    exact congrArg (fun r => (r.1, r.2.complaints)) hagree
  · rw [parse_faulty x base h, parse_faulty x .start h, map_map]
    exact congrArg (none, ·) (map_congr_left fun e he => ofScan_shift base (faults_line he))

end Componentry
