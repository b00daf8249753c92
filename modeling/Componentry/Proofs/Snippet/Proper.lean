import Componentry.Proofs.Snippet.Faithful
import Componentry.Proofs.Snippet.Parsing

/-!
# Tokens that scanning can give

A token is proper if scanning can give it: its word is a name, its number has no sign. What a tree is
printed as has proper tokens if its parts have; the lemmas about `AllProper` go through the tokens of
a tree in this way.
-/

namespace Componentry

open Snippet Number List

/-- The number is the nearest to some fraction, without a sign. -/
def Binary64.Canonical (v : Binary64) : Prop :=
  ∃ num den, den ≠ 0 ∧ Binary64.ofFraction? false num den = some v

theorem Binary64.Canonical.unsigned {v : Binary64} (h : v.Canonical) :
    ∃ m q, v = .finite false m q := by
  obtain ⟨num, den, -, hv⟩ := h
  obtain ⟨⟨m, q⟩, -, rfl⟩ := Option.map_eq_some_iff.1 hv
  exact ⟨m, q, rfl⟩

/-- A token that scanning can give: its word is a name, its number without a sign. -/
def TokenKind.Proper : TokenKind → Prop
  | .word w => Text.isIdentifier w = true
  | .number v => v.Canonical
  | _ => True

/-- All tokens are such that scanning can give them. -/
def AllProper (ks : List TokenKind) : Prop := ∀ k ∈ ks, k.Proper

namespace AllProper

variable {α : Type} {ks ls : List TokenKind} {k : TokenKind}

@[simp] theorem nil : AllProper [] := nofun

@[simp] theorem cons_iff : AllProper (k :: ks) ↔ k.Proper ∧ AllProper ks := forall_mem_cons

@[simp] theorem append_iff : AllProper (ks ++ ls) ↔ AllProper ks ∧ AllProper ls :=
  forall_mem_append

@[simp] theorem flatMap_iff {f : α → List TokenKind} {xs : List α} :
    AllProper (xs.flatMap f) ↔ ∀ x ∈ xs, AllProper (f x) := by
  induction xs with
  | nil => simp
  | cons x xs ih => rw [flatMap_cons, append_iff, ih, forall_mem_cons]

@[simp] theorem separated_iff {sep : Punct} : ∀ {kss : List (List TokenKind)},
    AllProper (separated sep kss) ↔ ∀ ks ∈ kss, AllProper ks
  | [] => by simp
  | [ks] => by simp
  | ks :: ls :: kss => by
    rw [separated_cons_cons, append_iff, cons_iff, separated_iff, forall_mem_cons]
    simp [TokenKind.Proper]

@[simp] theorem grouped_iff {wrap : Bool} : AllProper (groupedKinds wrap ks) ↔ AllProper ks := by
  cases wrap with
  | false => exact Iff.rfl
  | true => simp [groupedKinds, TokenKind.Proper]

end AllProper

@[simp] theorem TokenKind.proper_punct (p : Punct) : (TokenKind.punct p).Proper := trivial

@[simp] theorem TokenKind.proper_quoted (s : String) : (TokenKind.quoted s).Proper := trivial

@[simp] theorem proper_keyKind (s : String) : (keyKind s).Proper := by
  unfold keyKind
  split
  · assumption
  · trivial

@[simp] theorem allProper_optional (optional : Bool) : AllProper (optionalKinds optional) := by
  cases optional <;> simp [optionalKinds]

@[simp] theorem allProper_modifier (m : Option Modifier) : AllProper (Modifier.kinds m) := by
  cases m with
  | none => exact .nil
  | some m => cases m <;> simp [Modifier.kinds, TokenKind.Proper, Modifier.spelling] <;> decide

@[simp] theorem allProper_puncts (ps : List Punct) : AllProper (ps.map .punct) := by
  intro k hk
  obtain ⟨p, -, rfl⟩ := mem_map.1 hk
  trivial

@[simp] theorem UnaryOp.proper_kind (op : UnaryOp) : op.kind.Proper := by
  cases op with
  | typeOf => exact (by decide : Text.isIdentifier "typeof" = true)
  | _ => trivial

@[simp] theorem BindingKind.proper_keyword (kind : BindingKind) :
    (TokenKind.word kind.keyword).Proper := by
  cases kind
  · exact (by decide : Text.isIdentifier "const" = true)
  · exact (by decide : Text.isIdentifier "let" = true)

theorem allProper_number {v : Binary64} (h : v.Canonical) :
    AllProper (Literal.number v).kinds ∧ AllProper (Literal.number v.neg).kinds := by
  obtain ⟨m, q, rfl⟩ := h.unsigned
  have hproper : (TokenKind.number (.finite false m q)).Proper := h
  simpa [Literal.kinds, Literal.chunks, Binary64.neg] using hproper

/-- A text, a truth value or a finite number. -/
inductive Literal.Simple : Literal → Prop
  | text (s : String) : Simple (.text s)
  | bool (b : Bool) : Simple (.bool b)
  | unsigned {m : Nat} {q : Int} (h : (Binary64.finite false m q).Canonical) :
      Simple (.number (.finite false m q))
  | negative {m : Nat} {q : Int} (h : (Binary64.finite false m q).Canonical) :
      Simple (.number (.finite true m q))

theorem Literal.Simple.proper {v : Literal} (h : v.Simple) : AllProper v.kinds := by
  cases h with
  | text s => simp [Literal.kinds, Literal.chunks]
  | bool b => cases b <;> simp [Literal.kinds, Literal.chunks, TokenKind.Proper] <;> decide
  | unsigned h => exact (allProper_number h).1
  | negative h => exact (allProper_number h).2

/-! ## Words -/

/-- What a word stands for where an expression is read. -/
def wordExpr (loc : Location) (w : String) : Expr :=
  match w with
  | "true" => .literal loc (.bool true)
  | "false" => .literal loc (.bool false)
  | "null" => .literal loc .null
  | "this" => .self loc
  | "super" => .parent loc
  | _ => .name loc w

theorem wordExpr_bare (loc : Location) (w : String) :
    (wordExpr loc w).bare = wordExpr .nowhere w := by
  unfold wordExpr
  split <;> rfl

theorem allProper_wordExpr {loc : Location} {w : String} (h : (TokenKind.word w).Proper) :
    AllProper (wordExpr loc w).kinds := by
  unfold wordExpr
  split <;> simp_all [Literal.kinds, Literal.chunks]

theorem unaryOp?_eq_some {t : Token} {op : UnaryOp} : unaryOp? t = some op ↔ t.kind = op.kind := by
  unfold unaryOp?
  split <;> cases op <;> simp_all [UnaryOp.kind]

theorem isTarget_bare (e : Expr) : isTarget e.bare = isTarget e := by
  cases e <;> rfl

/-! ## Dotted names -/

section

variable {name w : String}

theorem not_mem_of_isIdentifier (h : Text.isIdentifier w = true) : '.' ∉ w.toList := by
  unfold Text.isIdentifier at h
  split at h
  · cases h
  · rename_i c cs hcs
    rw [hcs]
    rw [Bool.and_eq_true, all_eq_true] at h
    intro hmem
    rcases mem_cons.1 hmem with rfl | hmem
    · exact absurd h.1 (by decide)
    · exact absurd (h.2 _ hmem) (by decide)

theorem nameWords_of_isIdentifier (h : Text.isIdentifier w = true) : nameWords w = [w] := by
  unfold nameWords
  rw [splitOn_eq_singleton (not_mem_of_isIdentifier h)]
  simp

theorem nameWords_append (h : Text.isIdentifier w = true) :
    nameWords (name ++ "." ++ w) = nameWords name ++ [w] := by
  have hchars : (name ++ "." ++ w).toList = name.toList ++ '.' :: w.toList := by simp
  rw [← nameWords_of_isIdentifier h]
  unfold nameWords
  rw [hchars, splitOn_append_cons_self, map_append]

theorem allProper_nameKinds :
    AllProper (nameKinds name) ↔ ∀ w ∈ nameWords name, (TokenKind.word w).Proper := by
  simp [nameKinds]

end

end Componentry
