import Componentry.Proofs.Snippet.RoundTrip

/-!
# Types read off their texts

The text of a type can be that of another one. Declarations of different files share a name, field
names are written without quotes, and neither `|` under `&` nor `&` under `&` is put in parentheses.
A type that has none of this is `Readable`: it is written like an annotation, and that annotation
is read back from the text. So the texts of readable types tell them apart, up to declarations of
one name (`sameAll_of_textAll`).

The text of a list of types is read as that of a tuple. Whether commas are followed by blanks does
not matter to the scanner.
-/

namespace Componentry

open Snippet Number List TypeExpr

variable {ts : List Ty} {name : String} {v : Literal}

/-! ## Readable types -/

/-- A literal that a type can be, and that is read back from its text. -/
def Literal.Plain : Literal → Prop
  | .text s => Text.isPlain s = true
  | .number (.finite _ m q) => (Binary64.finite false m q).Canonical
  | .bool _ => True
  | _ => False

/-- A declaration whose name cannot be taken for another word. -/
structure Declaration.Plain (d : Declaration) : Prop where
  words : ∀ w ∈ nameWords d.name, Text.isIdentifier w = true
  declared : d.name ∉ primitiveWords

namespace Ty

mutual

/-- The annotation that is printed like the type. A type that is not known has none; some query
stands for it. -/
def written : Ty → TypeExpr
  | .primitive _ name => .reference .nowhere name []
  | .literal _ v => .literal .nowhere v
  | .union _ ms => .union .nowhere (writtenAll ms)
  | .intersection _ ms => .intersection .nowhere (writtenAll ms)
  | .tuple _ es => .tuple .nowhere (writtenAll es)
  | .array _ e => .array .nowhere e.written
  | .object _ fs => .object .nowhere (writtenFields fs)
  | .reference _ d as _ => .reference .nowhere d.name (writtenAll as)
  | .deferred _ word | .unrepresentable _ word => .query .nowhere (.name .nowhere word)

def writtenAll : List Ty → List TypeExpr
  | [] => []
  | t :: ts => t.written :: writtenAll ts

def writtenFields : List TyField → List PropertyType
  | [] => []
  | .mk name t optional :: fs => .mk name optional t.written :: writtenFields fs

end

mutual

/-- The type is known, and its literals and names are written as in an annotation. -/
def Plain : Ty → Prop
  | .primitive _ name => name ∈ primitiveWords
  | .literal _ v => v.Plain
  | .union _ ts | .intersection _ ts | .tuple _ ts => PlainAll ts
  | .array _ e => e.Plain
  | .object _ fs => PlainFields fs ∧ (fs.map TyField.name).Nodup
  | .reference _ d as _ => d.Plain ∧ PlainAll as
  | .deferred _ _ | .unrepresentable _ _ => False

def PlainAll : List Ty → Prop
  | [] => True
  | t :: ts => t.Plain ∧ PlainAll ts

/-- All fields have plain types, and names that need no quotes. -/
def PlainFields : List TyField → Prop
  | [] => True
  | .mk name t _ :: fs => (Text.isIdentifier name = true ∧ t.Plain) ∧ PlainFields fs

end

mutual

/-- The declarations that a type names. -/
def decls : Ty → List Declaration
  | .union _ ts | .intersection _ ts | .tuple _ ts => declsAll ts
  | .array _ e => e.decls
  | .object _ fs => declsFields fs
  | .reference _ d as _ => d :: declsAll as
  | _ => []

def declsAll : List Ty → List Declaration
  | [] => []
  | t :: ts => t.decls ++ declsAll ts

def declsFields : List TyField → List Declaration
  | [] => []
  | .mk _ t _ :: fs => t.decls ++ declsFields fs

end

/-- The type can be read off its text: its parts can, and none of them needs parentheses that are
not written. -/
structure Readable (t : Ty) : Prop where
  plain : t.Plain
  fits : t.written.fits .whole true = true

end Ty

/-! ## The text of a plain type -/

theorem Literal.Plain.simple (h : v.Plain) : v.Simple := by
  cases v with
  | text s => exact .text s
  | bool b => exact .bool b
  | number x =>
    cases x with
    | finite negative m q =>
      cases negative with
      | false => exact .unsigned h
      | true => exact .negative h
    | _ => cases h
  | _ => cases h

theorem Literal.Simple.text_eq (h : v.Simple) (id : NodeId) : (Ty.literal id v).text = v.source := by
  cases h <;> rfl

theorem Literal.Simple.same_self (h : v.Simple) : v.same v = true := by
  cases h <;> simp [Literal.same, Binary64.same]

theorem isIdentifier_of_primitive (h : name ∈ primitiveWords) :
    ∀ w ∈ nameWords name, Text.isIdentifier w = true := by
  have hall : ∀ name ∈ primitiveWords, ∀ w ∈ nameWords name, Text.isIdentifier w = true := by
    decide +kernel
  exact hall name h

namespace Ty

theorem isCompound_written (t : Ty) : t.written.isCompound = t.isCompound := by
  cases t <;> simp [written, TypeExpr.isCompound, isCompound]

theorem textField_eq {t : Ty} (optional : Bool) (hname : Text.isIdentifier name = true)
    (ht : t.text = t.written.print) :
    textField (.mk name t optional) = (PropertyType.mk name optional t.written).print := by
  show name ++ (if optional then "?: " else ": ") ++ t.text =
    Text.keyText name ++ (if optional then "?" else "") ++ ": " ++ t.written.print
  rw [Text.keyText, if_pos hname, ht]
  cases optional with
  | false => simp
  | true =>
    have hmark : "?: " = "?" ++ ": " := by decide
    simp only [if_true, hmark, String.append_assoc]

mutual

theorem Plain.text_eq : ∀ {t : Ty}, t.Plain → t.text = t.written.print
  | .primitive _ _, _ => rfl
  | .literal id _, h => (Literal.Plain.simple h).text_eq id
  | .union _ _, h => PlainAll.text_eq h " | "
  | .intersection _ _, h => PlainAll.text_eq h " & "
  | .tuple _ ts, h => by
    show "[" ++ textAll ", " ts ++ "]" = "[" ++ printAll ", " (writtenAll ts) ++ "]"
    rw [PlainAll.text_eq h]
  | .array _ e, h => by
    show (if e.isCompound then "(" ++ e.text ++ ")[]" else e.text ++ "[]") =
      parenthesized e.written.isCompound e.written.print ++ "[]"
    rw [isCompound_written, Plain.text_eq (t := e) h]
    cases e.isCompound with
    | false => rfl
    | true =>
      have hclose : ")[]" = ")" ++ "[]" := by decide
      simp only [if_true, parenthesized, hclose, String.append_assoc]
  | .object _ [], _ => rfl
  | .object _ (f :: fs), h => by
    show "\x7b " ++ textFields (f :: fs) ++ " \x7d" = _
    rw [PlainFields.text_eq h.1]
    cases f
    rfl
  | .reference _ _ [] _, _ => rfl
  | .reference _ d (a :: as) _, h => by
    show d.name ++ "<" ++ textAll ", " (a :: as) ++ ">" = _
    rw [PlainAll.text_eq h.2]
    rfl

theorem PlainAll.text_eq : ∀ {ts : List Ty}, PlainAll ts → ∀ sep : String,
    textAll sep ts = printAll sep (writtenAll ts)
  | [], _, _ => rfl
  | [_], h, _ => Plain.text_eq h.1
  | t :: u :: ts, h, sep => by
    show t.text ++ sep ++ textAll sep (u :: ts) = _
    rw [Plain.text_eq h.1, PlainAll.text_eq h.2]
    rfl

theorem PlainFields.text_eq : ∀ {fs : List TyField}, PlainFields fs →
    textFields fs = PropertyType.printAll (writtenFields fs)
  | [], _ => rfl
  | [.mk name t optional], h => textField_eq optional h.1.1 (Plain.text_eq h.1.2)
  | .mk name t optional :: g :: fs, h => by
    show textField (.mk name t optional) ++ "; " ++ textFields (g :: fs) = _
    rw [textField_eq optional h.1.1 (Plain.text_eq h.1.2), PlainFields.text_eq h.2]
    cases g
    rfl

end

/-! ## The tokens of a plain type -/

mutual

theorem Plain.proper : ∀ {t : Ty}, t.Plain → AllProper t.written.kinds
  | .primitive _ _, h => by
    rw [written, kinds_reference_nil, allProper_nameKinds]
    exact isIdentifier_of_primitive h
  | .literal _ _, h => by
    rw [written, kinds_literal]
    exact (Literal.Plain.simple h).proper
  | .union _ ts, h | .intersection _ ts, h | .tuple _ ts, h => by
    simpa [written] using PlainAll.proper h
  | .array _ e, h => by simpa [written] using Plain.proper (t := e) h
  | .object _ fs, h => by simpa [written] using PlainFields.proper h.1
  | .reference _ d [] _, h => by
    rw [written, writtenAll, kinds_reference_nil, allProper_nameKinds]
    exact h.1.words
  | .reference _ d (a :: as) _, h => by
    have hname := allProper_nameKinds.2 h.1.words
    have hargs := PlainAll.proper h.2
    rw [writtenAll] at hargs
    simpa [written, writtenAll, hname] using hargs

theorem PlainAll.proper : ∀ {ts : List Ty}, PlainAll ts → ∀ t ∈ writtenAll ts, AllProper t.kinds
  | [], _ => by
    rw [writtenAll]
    nofun
  | t :: ts, h => by
    rw [writtenAll, forall_mem_cons]
    exact ⟨Plain.proper h.1, PlainAll.proper h.2⟩

theorem PlainFields.proper : ∀ {fs : List TyField}, PlainFields fs →
    ∀ p ∈ writtenFields fs, AllProper p.kinds
  | [], _ => by
    rw [writtenFields]
    nofun
  | .mk name t optional :: fs, h => by
    rw [writtenFields, forall_mem_cons]
    refine ⟨?_, PlainFields.proper h.2⟩
    simpa using Plain.proper h.1.2

end

/-! ## Reading the text back -/

mutual

theorem bare_written : ∀ t : Ty, t.written.bare = t.written
  | .primitive _ _ | .literal _ _ | .deferred _ _ | .unrepresentable _ _ => by
    simp [written, bare, bareAll, Expr.bare]
  | .union _ ts | .intersection _ ts | .tuple _ ts => by
    simp [written, bare, bareAll_writtenAll ts]
  | .array _ e => by simp [written, bare, bare_written e]
  | .object _ fs => by simp [written, bare, bareAll_writtenFields fs]
  | .reference _ _ as _ => by simp [written, bare, bareAll_writtenAll as]

theorem bareAll_writtenAll : ∀ ts : List Ty, bareAll (writtenAll ts) = writtenAll ts
  | [] => by simp [writtenAll, bareAll]
  | t :: ts => by simp [writtenAll, bareAll, bare_written t, bareAll_writtenAll ts]

theorem bareAll_writtenFields : ∀ fs : List TyField,
    PropertyType.bareAll (writtenFields fs) = writtenFields fs
  | [] => by simp [writtenFields, PropertyType.bareAll]
  | .mk name t optional :: fs => by
    simp [writtenFields, PropertyType.bareAll, PropertyType.bare, bare_written t,
      bareAll_writtenFields fs]

end

theorem plainAll_of_readable (h : ∀ t ∈ ts, t.Readable) : PlainAll ts := by
  induction ts with
  | nil => trivial
  | cons t ts ih =>
    rw [forall_mem_cons] at h
    exact ⟨h.1.plain, ih h.2⟩

theorem fitsAll_of_readable (h : ∀ t ∈ ts, t.Readable) :
    fitsAll (writtenAll ts) = true := by
  induction ts with
  | nil => rfl
  | cons t ts ih =>
    rw [forall_mem_cons] at h
    rw [writtenAll, fitsAll, h.1.fits, ih h.2]
    rfl

/-- The texts of readable types between commas and in brackets are read as the tuple of what the
types are written like. -/
theorem read_textAll (h : ∀ t ∈ ts, t.Readable) :
    ∃ a, Snippet.read type .start ("[" ++ textAll "," ts ++ "]") = .ok a ∧
      a.bare = .tuple .nowhere (writtenAll ts) := by
  have hplain := plainAll_of_readable h
  have hfits : (TypeExpr.tuple .nowhere (writtenAll ts)).fits .whole true = true := by
    rw [TypeExpr.fits]
    exact fitsAll_of_readable h
  have htext : ("[" ++ textAll "," ts ++ "]").toList = charsOf (.mark .lbracket ::
      TypeExpr.chunksAll [.mark .comma] (writtenAll ts) ++ [.mark .rbracket]) := by
    have hall := TypeExpr.printAll_toList "," [.mark .comma] rfl (writtenAll ts)
    rw [hplain.text_eq]
    simp [hall, Punct.spelling]
  -- commas without blanks give the same tokens as the commas that annotations are printed with
  have hkinds : kindsOf (.mark .lbracket :: TypeExpr.chunksAll [.mark .comma] (writtenAll ts) ++
      [.mark .rbracket]) = (TypeExpr.tuple .nowhere (writtenAll ts)).kinds := by
    have hall := TypeExpr.kindsOf_chunksAll [.mark .comma] rfl (writtenAll ts)
    simp [hall]
  have hlegible : Legible (.mark .lbracket :: TypeExpr.chunksAll [.mark .comma] (writtenAll ts) ++
      [.mark .rbracket]) := by
    have hsep : Separates [.mark .comma] := ⟨fun _ => .mark (by decide), fun hcs => .mark rfl hcs⟩
    exact .append (.mark rfl (TypeExpr.legibleAll hsep (writtenAll ts))) (.mark rfl .nil)
      (.mark (by decide))
  have hbare : (TypeExpr.tuple .nowhere (writtenAll ts)).bare = .tuple .nowhere (writtenAll ts) :=
    bare_written (.tuple 0 ts)
  rw [← hbare]
  refine read_of_reads htext hlegible ?_ ?_ .start
  · unfold Proper
    rw [hkinds]
    exact Plain.proper (t := .tuple 0 ts) hplain
  · intro n hn
    rw [hkinds] at hn ⊢
    exact (TypeExpr.rereads _).whole true hfits n .done hn rfl

/-- Readable types between commas are written alike if their texts are equal. -/
theorem writtenAll_eq_of_textAll {us : List Ty} (hts : ∀ t ∈ ts, t.Readable)
    (hus : ∀ u ∈ us, u.Readable) (h : textAll "," ts = textAll "," us) :
    writtenAll ts = writtenAll us := by
  obtain ⟨a, ha, hbare⟩ := read_textAll hts
  obtain ⟨b, hb, hbare'⟩ := read_textAll hus
  rw [h, hb] at ha
  cases ha
  rw [hbare] at hbare'
  exact (TypeExpr.tuple.inj hbare').2

/-! ## Types that are written alike -/

/-- Declarations of one name, one from each list, are one declaration. -/
def NamesTell (ds es : List Declaration) : Prop :=
  ∀ d ∈ ds, ∀ e ∈ es, d.name = e.name → d.id = e.id

/-- Two fields with one name are both optional or not, and have the same type. -/
structure FieldsMatch (f g : TyField) : Prop where
  name : f.name = g.name
  optional : g.optional = f.optional
  type : f.type.same g.type = true

theorem findField_of_mem {gs : List TyField} (hnodup : (gs.map TyField.name).Nodup) {g : TyField}
    (hg : g ∈ gs) : findField gs g.name = some g := by
  induction gs with
  | nil => cases hg
  | cons f gs ih =>
    rw [map_cons, nodup_cons] at hnodup
    obtain rfl | hg := mem_cons.1 hg
    · simp [findField]
    · have hne : f.name ≠ g.name := fun heq => hnodup.1 (heq ▸ mem_map_of_mem hg)
      have hfind := ih hnodup.2 hg
      unfold findField at hfind ⊢
      rw [find?_cons_of_neg (by simpa using hne)]
      exact hfind

/-- Fields that match one by one are the same as object types compare them, if no name occurs
twice. The list that is searched stays while the list of fields is run through. -/
theorem sameFields_of_match {fs gs hs : List TyField} (h : Forall₂ FieldsMatch fs gs)
    (hnodup : (hs.map TyField.name).Nodup) (hsub : gs ⊆ hs) : sameFields fs hs = true := by
  induction h with
  | nil => rfl
  | @cons f g fs gs hfg _ ih =>
    cases f with
    | mk name t optional =>
      have hg : findField hs name = some g := by
        rw [show name = g.name from hfg.name]
        exact findField_of_mem hnodup (hsub mem_cons_self)
      have hopt : g.optional = optional := hfg.optional
      have htype : t.same g.type = true := hfg.type
      rw [sameFields, hg]
      simp [hopt, htype, ih fun x hx => hsub (mem_cons_of_mem _ hx)]

theorem NamesTell.left {ds ds' es es' : List Declaration} (h : NamesTell (ds ++ ds') (es ++ es')) :
    NamesTell ds es := fun d hd e he =>
  h d (mem_append_left _ hd) e (mem_append_left _ he)

theorem NamesTell.right {ds ds' es es' : List Declaration} (h : NamesTell (ds ++ ds') (es ++ es')) :
    NamesTell ds' es' := fun d hd e he =>
  h d (mem_append_right _ hd) e (mem_append_right _ he)

mutual

/-- Plain types that are written alike are the same. A name that is written alone can be that of a
built-in type or of a declaration; plain declarations do not have such names. -/
theorem Plain.same_of_written : ∀ {t u : Ty}, t.Plain → u.Plain → NamesTell t.decls u.decls →
    t.written = u.written → t.same u = true
  | .primitive _ name, u, ht, hu, _, h => by
    cases u with
    | primitive _ name' =>
      cases h
      exact beq_self_eq_true name
    | reference _ d as bases =>
      obtain ⟨-, hname, -⟩ := TypeExpr.reference.inj h
      exact absurd (hname ▸ ht) hu.1.declared
    | _ => cases h
  | .literal _ v, u, ht, _, _, h => by
    cases u with
    | literal _ w =>
      cases h
      exact (Literal.Plain.simple ht).same_self
    | _ => cases h
  | .union _ ts, u, ht, hu, hnames, h => by
    cases u with
    | union _ us => exact PlainAll.same_of_written ht hu hnames (TypeExpr.union.inj h).2
    | _ => cases h
  | .intersection _ ts, u, ht, hu, hnames, h => by
    cases u with
    | intersection _ us =>
      exact PlainAll.same_of_written ht hu hnames (TypeExpr.intersection.inj h).2
    | _ => cases h
  | .tuple _ ts, u, ht, hu, hnames, h => by
    cases u with
    | tuple _ us => exact PlainAll.same_of_written ht hu hnames (TypeExpr.tuple.inj h).2
    | _ => cases h
  | .array _ e, u, ht, hu, hnames, h => by
    cases u with
    | array _ f =>
      exact Plain.same_of_written (t := e) (u := f) ht hu hnames (TypeExpr.array.inj h).2
    | _ => cases h
  | .object _ fs, u, ht, hu, hnames, h => by
    cases u with
    | object _ gs =>
      have hmatch := PlainFields.match_of_written ht.1 hu.1 hnames (TypeExpr.object.inj h).2
      show (fs.length == gs.length && sameFields fs gs) = true
      rw [hmatch.length_eq, sameFields_of_match hmatch hu.2 (Subset.refl gs)]
      simp
    | _ => cases h
  | .reference _ d as bases, u, ht, hu, hnames, h => by
    cases u with
    | primitive _ name =>
      obtain ⟨-, hname, -⟩ := TypeExpr.reference.inj h
      exact absurd (hname ▸ hu) ht.1.declared
    | reference _ e bs bases' =>
      obtain ⟨-, hname, hargs⟩ := TypeExpr.reference.inj h
      have hid : d.id = e.id := hnames d mem_cons_self e mem_cons_self hname
      have hrest : NamesTell (declsAll as) (declsAll bs) := fun x hx y hy =>
        hnames x (mem_cons_of_mem _ hx) y (mem_cons_of_mem _ hy)
      show (d.id == e.id && sameAll as bs) = true
      rw [hid, PlainAll.same_of_written ht.2 hu.2 hrest hargs]
      simp
    | _ => cases h

theorem PlainAll.same_of_written : ∀ {ts us : List Ty}, PlainAll ts → PlainAll us →
    NamesTell (declsAll ts) (declsAll us) → writtenAll ts = writtenAll us → sameAll ts us = true
  | [], us, _, _, _, h => by
    cases us with
    | nil => rfl
    | cons u us => cases h
  | t :: ts, us, ht, hu, hnames, h => by
    cases us with
    | nil => cases h
    | cons u us =>
      obtain ⟨hhead, htail⟩ := List.cons.inj h
      show (t.same u && sameAll ts us) = true
      rw [Plain.same_of_written ht.1 hu.1 hnames.left hhead,
        PlainAll.same_of_written ht.2 hu.2 hnames.right htail]
      rfl

theorem PlainFields.match_of_written : ∀ {fs gs : List TyField}, PlainFields fs → PlainFields gs →
    NamesTell (declsFields fs) (declsFields gs) → writtenFields fs = writtenFields gs →
    Forall₂ FieldsMatch fs gs
  | [], gs, _, _, _, h => by
    cases gs with
    | nil => exact .nil
    | cons g gs =>
      cases g
      cases h
  | .mk name t optional :: fs, gs, hf, hg, hnames, h => by
    cases gs with
    | nil => cases h
    | cons g gs =>
      obtain ⟨name', t', optional'⟩ := g
      obtain ⟨hhead, htail⟩ := List.cons.inj h
      obtain ⟨hname, hoptional, htype⟩ := PropertyType.mk.inj hhead
      have hsame := Plain.same_of_written hf.1.2 hg.1.2 hnames.left htype
      exact .cons ⟨hname, hoptional.symm, hsame⟩
        (PlainFields.match_of_written hf.2 hg.2 hnames.right htail)

end

/-- The texts of readable types tell them apart: lists of such types with one text are the same,
place by place, if declarations of one name in them are one. -/
theorem sameAll_of_textAll {us : List Ty} (hts : ∀ t ∈ ts, t.Readable)
    (hus : ∀ u ∈ us, u.Readable) (hnames : NamesTell (declsAll ts) (declsAll us))
    (h : textAll "," ts = textAll "," us) : sameAll ts us = true :=
  (plainAll_of_readable hts).same_of_written (plainAll_of_readable hus) hnames
    (writtenAll_eq_of_textAll hts hus h)

end Ty

end Componentry
