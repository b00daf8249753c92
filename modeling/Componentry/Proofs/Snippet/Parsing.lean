import Componentry.Proofs.Outcome
import Componentry.Snippet.Grammar

/-!
# Outcomes of readers

`Parses m ts a rest` says what a step does with the tokens `ts`: it gives `a`, leaves `rest` and
does not complain, whatever was complained about before.

`Reads m ks k good` says that a rule succeeds on all tokens of certain kinds: on tokens of the kinds
`ks` in front of one of kind `k` it takes just these. Its lemmas put rules together.
-/

namespace Componentry.Snippet

open List

variable {rest ts : List Token} {t : Token} {p : Punct} {w : String}

variable {α β : Type}

/-- On `ts` the step gives `a` and leaves `rest`, without a complaint. -/
def Parses (m : Step α) (ts : List Token) (a : α) (rest : List Token) : Prop :=
  ∀ es, m ⟨ts, es⟩ = (a, ⟨rest, es⟩)

theorem Parses.bind {m : Step α} {f : α → Step β} {a : α} {b : β} {mid : List Token}
    (hm : Parses m ts a mid) (hf : Parses (f a) mid b rest) : Parses (m >>= f) ts b rest := by
  intro es
  show f (m ⟨ts, es⟩).1 (m ⟨ts, es⟩).2 = (b, ⟨rest, es⟩)
  rw [hm es]
  exact hf es

theorem isPunct_iff : t.isPunct p = true ↔ t.kind = .punct p := beq_iff_eq

theorem isWord_iff : t.isWord w = true ↔ t.kind = .word w := beq_iff_eq

theorem isPunct_of_ne (h : t.kind ≠ .punct p) : t.isPunct p = false := beq_false_of_ne h

theorem isWord_of_ne (h : t.kind ≠ .word w) : t.isWord w = false := beq_false_of_ne h

/-! ## Looking ahead -/

theorem parses_arrowFollows_bind {f : Bool → Step β} {b : β} :
    Parses (arrowFollows >>= f) ts b rest ↔
      Parses (f (((afterClosing 0 ts).bind head?).any (·.isPunct .arrow))) ts b rest :=
  Iff.rfl

/-- A token that is not the end mark is taken. -/
theorem parses_advance (ht : t.kind ≠ .done) : Parses advance (t :: ts) t ts := fun _ => if_neg ht

/-! ## Tokens of known kinds -/

/-- On tokens of the kinds `ks` in front of one of kind `k`, the reader takes just these and gives
what is `good`. -/
def Reads (m : Step (Option α)) (ks : List TokenKind) (k : TokenKind) (good : α → Prop) : Prop :=
  ∀ ts rest : List Token, ts.map Token.kind = ks → (rest.headD noToken).kind = k →
    ∃ a, Parses m (ts ++ rest) (some a) rest ∧ good a

namespace Reads

variable {m : Step (Option α)} {f : Option α → Step (Option β)} {g : Token → Step (Option β)}
  {c : Bool → Step (Option β)} {ks ls : List TokenKind} {k x : TokenKind} {p : Punct}
  {P P' : α → Prop} {Q : β → Prop}

theorem head_append (hts : ts.map Token.kind = ks) (hk : (rest.headD noToken).kind = k) :
    ((ts ++ rest).headD noToken).kind = ks.headD k := by
  cases ts with
  | nil =>
    cases hts
    exact hk
  | cons t us =>
    cases hts
    rfl

theorem mono (h : Reads m ks k P) (hP : ∀ a, P a → P' a) : Reads m ks k P' := by
  intro ts rest hts hk
  obtain ⟨a, ha, hgood⟩ := h ts rest hts hk
  exact ⟨a, ha, hP a hgood⟩

theorem pure {a : α} (h : P a) : Reads (Pure.pure (some a)) [] k P := by
  intro ts rest hts hk
  cases map_eq_nil_iff.1 hts
  exact ⟨a, fun _ => rfl, h⟩

/-- One rule after the other. -/
theorem bind (h : Reads m ks (ls.headD k) P) (hf : ∀ a, P a → Reads (f (some a)) ls k Q) :
    Reads (m >>= f) (ks ++ ls) k Q := by
  intro ts rest hts hk
  obtain ⟨us, vs, rfl, hus, hvs⟩ := map_eq_append_iff.1 hts
  obtain ⟨a, ha, hgood⟩ := h us (vs ++ rest) hus (head_append hvs hk)
  obtain ⟨b, hb, hq⟩ := hf a hgood vs rest hvs hk
  rw [append_assoc]
  exact ⟨b, ha.bind hb, hq⟩

/-- The same where no second rule follows. -/
theorem map {g : α → β} (h : Reads m ks k P) (hf : ∀ a, P a → Q (g a)) :
    Reads (m >>= fun a => Pure.pure (a.map g)) ks k Q := by
  rw [← append_nil ks]
  exact bind h fun a ha => pure (hf a ha)

theorem peek (h : ∀ t : Token, t.kind = ks.headD k → Reads (g t) ks k Q) :
    Reads (peek >>= g) ks k Q := by
  intro ts rest hts hk
  exact h _ (head_append hts hk) ts rest hts hk

theorem peek_cons (h : ∀ t : Token, t.kind = x → Reads (g t) (x :: ks) k Q) :
    Reads (Snippet.peek >>= g) (x :: ks) k Q := peek h

theorem sees (h : Reads (c (ks.headD k == .punct p)) ks k Q) :
    Reads (sees p >>= c) ks k Q := by
  unfold Snippet.sees
  rw [bind_assoc]
  refine peek fun t ht => ?_
  rw [pure_bind, Token.isPunct, ht]
  exact h

theorem isDone (h : Reads (c (ks.headD k == .done)) ks k Q) :
    Reads (isDone >>= c) ks k Q := by
  unfold Snippet.isDone
  rw [bind_assoc]
  refine peek fun t ht => ?_
  rw [pure_bind, ht]
  exact h

theorem sees_not (hp : ks.headD k ≠ .punct p) (h : Reads (c false) ks k Q) :
    Reads (Snippet.sees p >>= c) ks k Q := sees (by rwa [beq_false_of_ne hp])

theorem isDone_not (hk : ks.headD k ≠ .done) (h : Reads (c false) ks k Q) :
    Reads (Snippet.isDone >>= c) ks k Q := isDone (by rwa [beq_false_of_ne hk])

/-- The token after the next one, where the next one is known. -/
theorem peekSecond
    (h : ∀ t : Token, t.kind = ks.headD k → Reads (g t) (x :: ks) k Q) :
    Reads (peekSecond >>= g) (x :: ks) k Q := by
  intro ts rest hts hk
  obtain ⟨t, us, rfl, -, hus⟩ := map_eq_cons_iff.1 hts
  exact h _ (head_append hus hk) (t :: us) rest hts hk

/-- The token after the next one, where the next one is not looked at. -/
theorem peekSecond_nil (h : ∀ t : Token, Reads (g t) [] k Q) :
    Reads (Snippet.peekSecond >>= g) [] k Q := by
  intro ts rest hts hk
  exact h ((ts ++ rest).tail.headD noToken) ts rest hts hk

theorem advance (hx : x ≠ .done)
    (h : ∀ t : Token, t.kind = x → Reads (g t) ks k Q) :
    Reads (advance >>= g) (x :: ks) k Q := by
  intro ts rest hts hk
  obtain ⟨t, us, rfl, ht, hus⟩ := map_eq_cons_iff.1 hts
  obtain ⟨b, hb, hq⟩ := h t ht us rest hus hk
  exact ⟨b, (parses_advance (ht ▸ hx)).bind hb, hq⟩

theorem accept (h : Reads (c true) ks k Q) :
    Reads (accept p >>= c) (.punct p :: ks) k Q := by
  unfold Snippet.accept
  rw [bind_assoc]
  refine sees ?_
  rw [headD_cons, beq_self_eq_true, if_pos rfl, bind_assoc]
  exact advance nofun fun _ _ => h

theorem accept_not (hp : ks.headD k ≠ .punct p) (h : Reads (c false) ks k Q) :
    Reads (Snippet.accept p >>= c) ks k Q := by
  unfold Snippet.accept
  rw [bind_assoc]
  exact sees_not hp h

theorem expect {why : Complaint} {f : Option Unit → Step (Option β)}
    (h : Reads (f (some ())) ks k Q) :
    Reads (expect p why >>= f) (.punct p :: ks) k Q := by
  unfold Snippet.expect
  rw [bind_assoc]
  refine peek fun t ht => ?_
  rw [if_pos (isPunct_iff.2 ht), bind_assoc]
  exact advance nofun fun _ _ => h

theorem expectWord_bind {why : Complaint} {f : Option String → Step (Option β)}
    (h : Reads (f (some w)) ls k Q) :
    Reads (expectWord why >>= f) (.word w :: ls) k Q := by
  unfold expectWord
  rw [bind_assoc]
  refine peek_cons fun t ht => ?_
  simp only [ht, bind_assoc]
  exact advance nofun fun _ _ => h

theorem expectWord {why : Complaint} : Reads (expectWord why) [.word w] k (· = w) := by
  have h : Reads (Snippet.expectWord why >>= Pure.pure) [.word w] k (· = w) :=
    expectWord_bind (pure rfl)
  simpa using h

/-- A loop with a bound that the tokens it takes cannot reach. -/
theorem bounded_bind {loop : Nat → Step (Option α)}
    (h : ∀ n, ks.length < n → Reads (loop n >>= f) ks k Q) :
    Reads (bounded loop >>= f) ks k Q := by
  intro ts rest hts hk
  refine h ((ts ++ rest).length + 1) ?_ ts rest hts hk
  rw [← hts, length_map, length_append]
  omega

theorem bounded {loop : Nat → Step (Option α)} (h : ∀ n, ks.length < n → Reads (loop n) ks k P) :
    Reads (bounded loop) ks k P := by
  have hbind : Reads (Snippet.bounded loop >>= Pure.pure) ks k P :=
    bounded_bind fun n hn => by simpa using h n hn
  simpa using hbind

end Reads

end Componentry.Snippet
