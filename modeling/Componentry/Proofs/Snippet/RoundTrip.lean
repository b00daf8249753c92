import Componentry.Proofs.Outcome
import Componentry.Proofs.Snippet.Reading
import Componentry.Proofs.Snippet.Rereading

/-!
# Printing and reading back

A tree that was read and that prints faithfully is read back from its printed form, up to locations
(`expression_reread`, `type_reread`). The argument goes through the tokens: the chunks of the
printed form are legible, so they are scanned to their tokens; the tokens of a tree that fits its
slot are read as the tree.

A tree that does not fit prints without parentheses that the grammar asks for, and is read back as
another one: `(a + b).c` is printed as `a + b.c`, and `(A | B) & C` as `A | B & C`.
-/

namespace Componentry

open Snippet Text List

variable {α : Type} {rule : Grammar → Parse α} {P : α → Prop}

theorem Snippet.Reads.closing {a : α} (ha : P a) : Reads (closing a) [] .done P := by
  refine .accept_not nofun (.peek fun t ht => ?_)
  rw [headD_nil] at ht
  rw [if_pos ht]
  exact .pure ha

/-- A rule that reads the tokens in front of the end mark reads all of them. -/
theorem readTokens_of_reads {ks : List TokenKind} {ts : List Token}
    (hts : ts.map Token.kind = ks ++ [.done])
    (h : Reads (rule (grammar (ts.length + 1))) ks .done P) :
    ∃ a, readTokens rule ts = (some a, []) ∧ P a := by
  obtain ⟨us, vs, rfl, hus, hvs⟩ := map_eq_append_iff.1 hts
  obtain ⟨t, rfl, ht⟩ := map_eq_singleton_iff.1 hvs
  obtain ⟨a, hrule, ha⟩ := h us [t] hus ht
  obtain ⟨b, hclosing, hb⟩ := Reads.closing ha [] [t] rfl ht
  refine ⟨b, ?_, hb⟩
  unfold readTokens
  rw [whole_of_given (hrule []) rfl, show closing a ⟨[t], []⟩ = (some b, ⟨[t], []⟩) from hclosing []]

/-- The text of chunks that are scanned one by one is read by a rule that reads their tokens. -/
theorem read_of_laid {cs : List Chunk} {s : String} (hs : s.toList = charsOf cs)
    (hlaid : Laid cs [])
    (h : ∀ n, (kindsOf cs).length ≤ n → Reads (rule (grammar n)) (kindsOf cs) .done P)
    (base : Location) : ∃ a, read rule base s = .ok a ∧ P a := by
  obtain ⟨hfaults, hkinds⟩ := tokens_of_laid hs hlaid base
  have hlength : (kindsOf cs).length ≤ ((tokens (utf8 s)).map (Token.within base)).length + 1 := by
    have := congrArg length hkinds
    rw [length_map, length_append] at this
    omega
  obtain ⟨a, hread, ha⟩ := readTokens_of_reads hkinds (h _ hlength)
  refine ⟨a, ?_, ha⟩
  unfold Snippet.read Snippet.parse
  dsimp only
  rw [hfaults]
  dsimp only
  rw [hread]
  rfl

/-- The text of legible chunks is read by a rule that reads their tokens. -/
theorem read_of_reads {cs : List Chunk} {s : String} (hs : s.toList = charsOf cs)
    (hlegible : Legible cs) (hproper : Proper cs)
    (h : ∀ n, (kindsOf cs).length ≤ n → Reads (rule (grammar n)) (kindsOf cs) .done P)
    (base : Location) : ∃ a, read rule base s = .ok a ∧ P a :=
  read_of_laid hs (hlegible hproper [] soft_nil) h base

/-- An expression that was read and prints faithfully is read back, up to locations. -/
theorem expression_reread {base : Location} {source : String} {e : Expr}
    (hread : read expression base source = .ok e) (hfaithful : e.Faithful)
    (base' : Location) :
    ∃ e', read expression base' e.print = .ok e' ∧ e'.bare = e.bare :=
  read_of_reads e.print_toList e.legible (Expr.proper_of_read hread)
    (fun n hn => e.rereads.whole hfaithful n .done hn rfl) base'

theorem expression_reread_assignment : ∃ e, read expression .start
    "new Door(-1.5e3).open((k?: A | B[]) => (\x7b key: (a + b) * !c \x7d))[0] = \"x y\"" = .ok e ∧
      e.Faithful ∧ ∃ e', read expression .start e.print = .ok e' ∧ e'.bare = e.bare := by
  obtain ⟨e, hread, hfits⟩ : ∃ e, read expression .start
      "new Door(-1.5e3).open((k?: A | B[]) => (\x7b key: (a + b) * !c \x7d))[0] = \"x y\"" = .ok e ∧
        e.fits .whole = true := exists_ok (by decide +kernel)
  exact ⟨e, hread, hfits, expression_reread hread hfits .start⟩

/-- A type that was read and prints faithfully is read back, up to locations. -/
theorem type_reread {base : Location} {source : String} {t : TypeExpr}
    (hread : read type base source = .ok t) (hfits : t.fits .whole true = true)
    (base' : Location) :
    ∃ t', read type base' t.print = .ok t' ∧ t'.bare = t.bare :=
  read_of_reads t.print_toList t.legible (TypeExpr.proper_of_read hread)
    (fun n hn => t.rereads.whole true hfits n .done hn rfl) base'

theorem type_reread_conditional : ∃ t, read type .start
    "Map<string, -1 | (A & B)[]> extends \x7b a?: [T.U, \"x y\"] \x7d ? (k: K) => V : true" =
      .ok t ∧ t.fits .whole true = true ∧
        ∃ t', read type .start t.print = .ok t' ∧ t'.bare = t.bare := by
  obtain ⟨t, hread, hfits⟩ : ∃ t, read type .start
      "Map<string, -1 | (A & B)[]> extends \x7b a?: [T.U, \"x y\"] \x7d ? (k: K) => V : true" =
        .ok t ∧ t.fits .whole true = true := exists_ok (by decide +kernel)
  exact ⟨t, hread, hfits, type_reread hread hfits .start⟩

end Componentry
