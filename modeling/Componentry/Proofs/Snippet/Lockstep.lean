import Componentry.Proofs.Snippet.Moving
import Componentry.Proofs.Snippet.Tokens

/-!
# Readers in lockstep

Two readers are run side by side, the second on the tokens of the first with their locations moved.
`InStep` says that they do the same, whatever was complained about before: both succeed without a
complaint, the second with what the first gives, moved in the same way, or both give nothing after
one complaint about the same token. So neither runs out of its bound, where it would give nothing
and not complain. `InStep` also says where they come to: no end mark has been passed, one is still
ahead, and fewer tokens are left than a given number.

The two readers may fall back on different grammars, so one relation answers three questions:
whether reading comes to an end at all, whether its outcome depends on how far the grammar is
unrolled (both without moving anything), and whether it depends on where the snippet stands. A
`Pass` answers a fourth one on the way: whether what is read consists of tokens that scanning can
give, if the snippet does.

The lemmas put readers together along the operations they are built from. Where one rule follows on
another, the first may have failed: then what comes after has to give nothing and do nothing, or
there would be a second complaint. A loop is followed by
induction on its bound: each round but the last takes a token, so a bound above the number of tokens
is never reached.
-/

namespace Componentry.Snippet

open List Snippet

variable {α β : Type}

/-! ## Places in a list of tokens -/

/-- The tokens end in an end mark. -/
def Ended (ts : List Token) : Prop := ts.getLast?.map Token.kind = some .done

/-- Reading `src` can have come to `ts`: no end mark has been passed, and one is ahead. -/
structure Reached (src ts : List Token) : Prop where
  passed : ∃ used, used ++ ts = src ∧ ∀ t ∈ used, t.kind ≠ .done
  marked : ∃ t ∈ ts, t.kind = .done

namespace Reached

variable {src ts us : List Token} {t : Token}

theorem start (h : Ended src) : Reached src src := by
  refine ⟨⟨[], rfl, by simp⟩, ?_⟩
  obtain ⟨t, ht, hkind⟩ := Option.map_eq_some_iff.1 h
  exact ⟨t, mem_of_getLast? ht, hkind⟩

theorem exists_cons (h : Reached src ts) : ∃ t us, ts = t :: us := by
  obtain ⟨t, ht, -⟩ := h.marked
  exact exists_cons_of_ne_nil (ne_nil_of_mem ht)

/-- One token further. -/
theorem next (h : Reached src (t :: us)) (ht : t.kind ≠ .done) : Reached src us := by
  obtain ⟨⟨used, rfl, hused⟩, d, hd, hdone⟩ := h
  refine ⟨⟨used ++ [t], by simp, ?_⟩, d, ?_, hdone⟩
  · intro u hu
    rcases mem_append.1 hu with hu | hu
    · exact hused u hu
    · rwa [mem_singleton.1 hu]
  · rcases mem_cons.1 hd with rfl | hd
    · exact absurd hdone ht
    · exact hd

end Reached

/-! ## Outcomes that agree -/

/-- The same with all locations moved. -/
def Desk.move (f : Location → Location) (s : Desk) : Desk :=
  ⟨s.tokens.map (Token.move f), s.complaints.map (ParseError.move f)⟩

/-! ## Passes -/

/-- How a tree is moved, and what it is for its tokens to be proper. -/
structure Form (α : Type) where
  move : (Location → Location) → α → α
  Proper : α → Prop

namespace Form

/-- Trees whose tokens do not matter. -/
@[simp] def moved (move : (Location → Location) → α → α) : Form α := ⟨move, fun _ => True⟩

/-- What has no locations and no tokens. -/
@[simp] def plain : Form α := moved fun _ => id

@[simp] def word : Form String := ⟨fun _ => id, fun w => (TokenKind.word w).Proper⟩

@[simp] def list (S : Form α) : Form (List α) :=
  ⟨fun f => List.map (S.move f), fun as => ∀ a ∈ as, S.Proper a⟩

end Form

/-- Two runs side by side: how locations are moved for the second, the tokens of the first, and
whether it is known that scanning can give them. -/
structure Pass where
  move : Location → Location
  src : List Token
  clean : Prop
  scanned : clean → Scanned src

namespace Pass

/-- The outcomes of the runs agree, where `es` was complained about before. Both give the same, moved
for the second, with fewer than `n` tokens left and no complaint more, and what they give is proper
if the tokens are; or both give nothing and made one complaint about the same token, which was
reached. -/
inductive Agree (p : Pass) (S : Form α) (n : Nat) (es : List ParseError) :
    Option α × Desk → Option α × Desk → Prop where
  | given {a : α} {rest : List Token} (hrest : Reached p.src rest) (hn : rest.length < n)
      (ha : p.clean → S.Proper a) :
      Agree p S n es (some a, ⟨rest, es⟩) (some (S.move p.move a), Desk.move p.move ⟨rest, es⟩)
  | refused {why : Complaint} {t : Token} {us left : List Token} (ht : Reached p.src (t :: us)) :
      Agree p S n es (none, ⟨left, es ++ [.about why t]⟩)
        (none, Desk.move p.move ⟨left, es ++ [.about why t]⟩)

/-- The readers do the same on `ts`. -/
def InStep (p : Pass) (S : Form α) (n : Nat) (m m' : Step (Option α)) (ts : List Token) : Prop :=
  ∀ es, p.Agree S n es (m ⟨ts, es⟩) (m' (Desk.move p.move ⟨ts, es⟩))

/-- The readers go in step wherever fewer than `k` tokens are left. -/
def Follows (p : Pass) (S : Form α) (k : Nat) (m m' : Step (Option α)) : Prop :=
  ∀ ts, Reached p.src ts → ts.length < k → p.InStep S (ts.length + 1) m m' ts

/-- The readers go in step wherever fewer than `k` tokens are left, and take at least one. -/
def Advances (p : Pass) (S : Form α) (k : Nat) (m m' : Step (Option α)) : Prop :=
  ∀ ts, Reached p.src ts → ts.length < k → p.InStep S ts.length m m' ts

/-- Reading comes to where `t` and then `s` are next. -/
def Sees (p : Pass) (t s : Token) : Prop :=
  ∃ us, Reached p.src (t :: us) ∧ us.headD noToken = s

/-- The readers go in step where `t` and then `s` come next and fewer than `k` tokens are left, and
leave fewer than `d` more than there were. -/
def FollowsAt (p : Pass) (S : Form α) (d k : Nat) (t s : Token) (m m' : Step (Option α)) : Prop :=
  ∀ us, us.headD noToken = s → Reached p.src (t :: us) → us.length + 1 < k →
    p.InStep S (us.length + 1 + d) m m' (t :: us)

variable {p : Pass} {ts us : List Token} {S : Form α} {T : Form β} {i k n : Nat}
  {m m' : Step (Option α)} {t s : Token} {q : Punct} {es : List ParseError}
  {r r' : Option α × Desk}

theorem Agree.mono (h : p.Agree S i es r r') (hn : i ≤ n) : p.Agree S n es r r' := by
  cases h with
  | given hrest hi ha => exact .given hrest (by omega) ha
  | refused ht => exact .refused ht

/-- The second of two outcomes that agree is the first one moved. -/
theorem Agree.eq_move (h : p.Agree S n es r r') : r' = (r.1.map (S.move p.move), r.2.move p.move) := by
  cases h with
  | given => rfl
  | refused => rfl

theorem Agree.proper {a : α} {desk : Desk} (h : p.Agree S n es (some a, desk) r) (hp : p.clean) :
    S.Proper a := by
  cases h with
  | given _ _ ha => exact ha hp

/-- The pass over tokens that may be anything. -/
def along (f : Location → Location) (src : List Token) : Pass := ⟨f, src, False, False.elim⟩

/-! ### Tokens that are seen -/

theorem ne_done_of_isPunct (h : t.isPunct q = true) : t.kind ≠ .done := by
  rw [isPunct_iff.1 h]
  simp

theorem Sees.first {x : TokenKind} (h : p.Sees t s) (hx : t.kind = x) (hp : p.clean) :
    x.Proper := by
  obtain ⟨us, ⟨⟨used, hused, -⟩, -⟩, -⟩ := h
  exact hx ▸ p.scanned hp t (by rw [← hused]; simp)

theorem Sees.second {x : TokenKind} (h : p.Sees t s) (hx : s.kind = x) (hp : p.clean) :
    x.Proper := by
  subst hx
  obtain ⟨_ | ⟨u, us⟩, ⟨⟨used, hused, -⟩, -⟩, rfl⟩ := h
  · trivial
  · exact p.scanned hp u (by rw [← hused]; simp)

/-- What follows on a rule gives nothing and does nothing where the rule gave nothing. -/
def HandsOn (g g' : Option α → Step (Option β)) : Prop :=
  (g none, g' none) = (Pure.pure none, Pure.pure none)

namespace InStep

theorem mono (h : p.InStep S i m m' ts) (hn : i ≤ n) : p.InStep S n m m' ts :=
  fun es => (h es).mono hn

theorem pure {a a' : α} (ha : S.move p.move a = a') (hp : p.clean → S.Proper a)
    (hts : Reached p.src ts) (hn : ts.length < n) :
    p.InStep S n (Pure.pure (some a)) (Pure.pure (some a')) ts := by
  subst ha
  exact fun es => .given hts hn hp

theorem complain {why : Complaint} (ht : Reached p.src (t :: us)) :
    p.InStep S n (complain why t) (complain why (t.move p.move)) ts := by
  intro es
  have hmoved : Snippet.complain (α := α) why (t.move p.move) (Desk.move p.move ⟨ts, es⟩) =
      (none, Desk.move p.move ⟨ts, es ++ [.about why t]⟩) := by
    simp only [Desk.move, map_append]
    rfl
  rw [hmoved]
  exact .refused ht

/-- One rule after the other. -/
theorem bind {g g' : Option α → Step (Option β)} (h : p.InStep S i m m' ts)
    (hnone : HandsOn g g')
    (hg : ∀ a rest, (p.clean → S.Proper a) → Reached p.src rest → rest.length < i →
      p.InStep T n (g (some a)) (g' (some (S.move p.move a))) rest) :
    p.InStep T n (m >>= g) (m' >>= g') ts := by
  intro es
  have hm := h es
  change p.Agree T n es (g (m ⟨ts, es⟩).1 (m ⟨ts, es⟩).2)
    (g' (m' (Desk.move p.move ⟨ts, es⟩)).1 (m' (Desk.move p.move ⟨ts, es⟩)).2)
  generalize m ⟨ts, es⟩ = r at hm ⊢
  generalize m' (Desk.move p.move ⟨ts, es⟩) = r' at hm ⊢
  cases hm with
  | given hrest hi ha => exact hg _ _ ha hrest hi es
  | refused ht =>
    obtain ⟨hg, hg'⟩ := Prod.mk.inj hnone
    rw [hg, hg']
    exact .refused ht

/-! ### Looking ahead -/

theorem peek {g g' : Token → Step (Option β)} (hts : Reached p.src ts)
    (h : ∀ t us, ts = t :: us → p.InStep T n (g t) (g' (t.move p.move)) ts) :
    p.InStep T n (peek >>= g) (peek >>= g') ts := by
  obtain ⟨t, us, rfl⟩ := hts.exists_cons
  exact h t us rfl

theorem sees {g g' : Bool → Step (Option β)} (hts : Reached p.src ts)
    (h : ∀ t us, ts = t :: us → p.InStep T n (g (t.isPunct q)) (g' (t.isPunct q)) ts) :
    p.InStep T n (sees q >>= g) (sees q >>= g') ts := by
  obtain ⟨t, us, rfl⟩ := hts.exists_cons
  exact h t us rfl

/-- The search for a closing parenthesis does not look at locations. -/
theorem afterClosing_move (f : Location → Location) (d : Nat) (ts : List Token) :
    afterClosing d (ts.map (Token.move f)) = (afterClosing d ts).map (map (Token.move f)) := by
  induction ts generalizing d with
  | nil => rfl
  | cons t us ih =>
    rw [map_cons]
    unfold afterClosing
    rw [Token.kind_move]
    split
    · rfl
    · exact ih _
    · split
      · rfl
      · exact ih _
    · exact ih _

theorem arrowFollows {g g' : Bool → Step (Option β)} (h : ∀ b, p.InStep T n (g b) (g' b) ts) :
    p.InStep T n (arrowFollows >>= g) (arrowFollows >>= g') ts := by
  have hsame : ((afterClosing 0 (ts.map (Token.move p.move))).bind head?).any
      (·.isPunct .arrow) = ((afterClosing 0 ts).bind head?).any (·.isPunct .arrow) := by
    rw [afterClosing_move]
    rcases afterClosing 0 ts with _ | _ | ⟨t, us⟩ <;> rfl
  intro es
  have hg := h (((afterClosing 0 ts).bind head?).any (·.isPunct .arrow)) es
  change p.Agree T n es (g _ ⟨ts, es⟩) (g' _ _)
  rwa [← hsame] at hg ⊢

/-! ### Taking tokens -/

theorem advance {g g' : Token → Step (Option β)} (hts : Reached p.src (t :: us))
    (ht : t.kind ≠ .done) (h : Reached p.src us → p.InStep T n (g t) (g' (t.move p.move)) us) :
    p.InStep T n (advance >>= g) (Snippet.advance >>= g') (t :: us) := by
  intro es
  have hrun : Snippet.advance ⟨t :: us, es⟩ = (t, ⟨us, es⟩) := if_neg ht
  have hrun' : Snippet.advance (Desk.move p.move ⟨t :: us, es⟩) =
      (t.move p.move, Desk.move p.move ⟨us, es⟩) := if_neg ht
  change p.Agree T n es (g (Snippet.advance ⟨t :: us, es⟩).1 (Snippet.advance ⟨t :: us, es⟩).2)
    (g' (Snippet.advance (Desk.move p.move ⟨t :: us, es⟩)).1
      (Snippet.advance (Desk.move p.move ⟨t :: us, es⟩)).2)
  rw [hrun, hrun']
  exact h (hts.next ht) es

theorem accept {g g' : Bool → Step (Option β)} (hts : Reached p.src ts)
    (h₁ : ∀ us, Reached p.src us → us.length < ts.length → p.InStep T n (g true) (g' true) us)
    (h₂ : p.InStep T n (g false) (g' false) ts) :
    p.InStep T n (accept q >>= g) (accept q >>= g') ts := by
  unfold Snippet.accept
  rw [bind_assoc, bind_assoc]
  refine sees hts fun t us hcons => ?_
  by_cases hq : t.isPunct q = true
  · rw [if_pos hq, bind_assoc, bind_assoc]
    subst hcons
    exact advance hts (ne_done_of_isPunct hq) fun hus => h₁ us hus (Nat.lt_succ_self _)
  · rw [if_neg hq]
    exact h₂

end InStep

/-! ## Readers as a whole

The same for readers wherever they start. What a reader does first may need more tokens ahead than
what follows: after a token has been taken, `k` tokens are enough for what needed `k + 1`. -/

/-- Two choices made alike. -/
theorem both_ite {R : Step (Option α) → Step (Option α) → Prop} {c : Prop} [Decidable c]
    {m₁ m₂ m₁' m₂' : Step (Option α)}
    (h₁ : c → R m₁ m₁') (h₂ : ¬ c → R m₂ m₂') :
    R (if c then m₁ else m₂) (if c then m₁' else m₂') := by
  by_cases hc : c
  · rw [if_pos hc, if_pos hc]
    exact h₁ hc
  · rw [if_neg hc, if_neg hc]
    exact h₂ hc

variable {d : Nat} {g g' : Option α → Step (Option β)} {h h' : Token → Step (Option β)}
  {c c' : Bool → Step (Option β)}

/-- What is given to them is read on alike. -/
def Continues (p : Pass) (S : Form α) (T : Form β) (k : Nat) (g g' : Option α → Step (Option β)) :
    Prop :=
  ∀ a, (p.clean → S.Proper a) → p.Follows T k (g (some a)) (g' (some (S.move p.move a)))

theorem InStep.andThen (hm : p.InStep S n m m' ts) (hnone : HandsOn g g')
    (hg : p.Continues S T k g g') (hn : n ≤ k) : p.InStep T n (m >>= g) (m' >>= g') ts := by
  refine .bind hm hnone fun a rest ha hrest hlen => ?_
  exact (hg a ha rest hrest (by omega)).mono (by omega)

namespace Follows

theorem zero : p.Follows S 0 m m' := fun _ _ hk => absurd hk (Nat.not_lt_zero _)

theorem pure {a a' : α} (ha : S.move p.move a = a') (hp : p.clean → S.Proper a) :
    p.Follows S k (Pure.pure (some a)) (Pure.pure (some a')) :=
  fun _ hts _ => .pure ha hp hts (Nat.lt_succ_self _)

/-- What is given has no tokens that matter. -/
theorem done {move : (Location → Location) → α → α} {a a' : α} (ha : move p.move a = a') :
    p.Follows (.moved move) k (Pure.pure (some a)) (Pure.pure (some a')) := pure ha fun _ => trivial

theorem complain {why : Complaint} (ht : p.Sees t s) :
    p.Follows S k (complain why t) (complain why (t.move p.move)) :=
  fun _ _ _ => .complain ht.choose_spec.1

theorem bind (hm : p.Follows S k m m')
    (hnone : HandsOn g g') (hg : p.Continues S T k g g') :
    p.Follows T k (m >>= g) (m' >>= g') :=
  fun ts hts hk => (hm ts hts hk).andThen hnone hg hk

/-- The first reader takes a token, which need not be counted. -/
theorem take (hm : p.Advances S k m m')
    (hnone : HandsOn g g') (hg : p.Continues S T k g g') :
    p.Follows T k (m >>= g) (m' >>= g') :=
  bind (fun ts hts hk => (hm ts hts hk).mono (Nat.le_succ _)) hnone hg

theorem peek (hg : ∀ t s, p.Sees t s → p.FollowsAt T 1 k t s (h t) (h' (t.move p.move))) :
    p.Follows T k (peek >>= h) (peek >>= h') := by
  intro ts hts hk
  refine .peek hts fun t us hcons => ?_
  subst hcons
  exact hg t _ ⟨us, hts, rfl⟩ us rfl hts hk

theorem sees_at (hg : ∀ t s, p.FollowsAt T 1 k t s (c (t.isPunct q)) (c' (t.isPunct q))) :
    p.Follows T k (sees q >>= c) (sees q >>= c') := by
  intro ts hts hk
  refine .sees hts fun t us hcons => ?_
  subst hcons
  exact hg t _ us rfl hts hk

theorem sees (hg : ∀ b, p.Follows T k (c b) (c' b)) :
    p.Follows T k (sees q >>= c) (sees q >>= c') :=
  fun ts hts hk => .sees hts fun _ _ _ => hg _ ts hts hk

theorem isDone (hg : ∀ b, p.Follows T k (c b) (c' b)) :
    p.Follows T k (isDone >>= c) (isDone >>= c') := by
  intro ts hts hk
  obtain ⟨t, us, rfl⟩ := hts.exists_cons
  exact hg (t.kind == .done) _ hts hk

theorem accept (h₁ : p.Follows T k (c true) (c' true))
    (h₂ : p.Follows T (k + 1) (c false) (c' false)) :
    p.Follows T (k + 1) (accept q >>= c) (accept q >>= c') := by
  intro ts hts hk
  refine .accept hts (fun us hus hlen => ?_) (h₂ ts hts hk)
  exact (h₁ us hus (by omega)).mono (by omega)

/-- The same where both ways go on alike. -/
theorem accept_any (hc : ∀ b, p.Follows T k (c b) (c' b)) :
    p.Follows T k (Snippet.accept q >>= c) (Snippet.accept q >>= c') := by
  intro ts hts hk
  refine .accept hts (fun us hus hlen => ?_) (hc false ts hts hk)
  exact (hc true us hus (by omega)).mono (by omega)

/-- A loop whose bound is above the number of tokens. -/
theorem bounded {loop loop' : Nat → Step (Option α)}
    (hloop : ∀ n, n ≤ k → p.Follows S n (loop n) (loop' n)) :
    p.Follows S k (bounded loop) (bounded loop') := by
  intro ts hts hk es
  have hrun := hloop (ts.length + 1) hk ts hts (Nat.lt_succ_self _) es
  have hlength : (Desk.move p.move ⟨ts, es⟩).tokens.length = ts.length := length_map ..
  unfold Snippet.bounded
  rwa [hlength]

end Follows

namespace FollowsAt

theorem of_follows (hm : p.Follows S k m m') : p.FollowsAt S 1 k t s m m' :=
  fun us _ hts hk => hm (t :: us) hts hk

theorem of_advances (hm : p.Advances S k m m') : p.FollowsAt S 0 k t s m m' :=
  fun us _ hts hk => hm (t :: us) hts hk

theorem complain {why : Complaint} :
    p.FollowsAt S d k t s (complain why t) (complain why (t.move p.move)) :=
  fun _ _ hts _ => .complain hts

theorem advance (ht : t.kind ≠ .done) (hg : p.Follows T k (h t) (h' (t.move p.move))) :
    p.FollowsAt T d (k + 1) t s (advance >>= h) (advance >>= h') := by
  intro us _ hts hk
  refine .advance hts ht fun hus => ?_
  exact (hg us hus (by omega)).mono (by omega)

theorem bind (hm : p.FollowsAt S 0 k t s m m')
    (hnone : HandsOn g g') (hg : p.Continues S T k g g') :
    p.FollowsAt T 0 k t s (m >>= g) (m' >>= g') :=
  fun us hs hts hk => (hm us hs hts hk).andThen hnone hg (by omega)

/-- The token is taken, but need not be counted. -/
theorem advance_any (ht : t.kind ≠ .done) (hg : p.Follows T k (h t) (h' (t.move p.move))) :
    p.FollowsAt T d k t s (Snippet.advance >>= h) (Snippet.advance >>= h') :=
  fun us hs hts hk =>
    advance ht (fun vs hvs hk' => hg vs hvs (by omega)) us hs hts (Nat.lt_succ_of_lt hk)

/-- Both tokens are taken. The second is not the end mark, since it was looked at before. -/
theorem advance_two {n n' : Step (Option β)} (ht : t.kind ≠ .done) (hs : s.kind ≠ .done)
    (hn : p.Follows T k n n') :
    p.FollowsAt T d (k + 1) t s (Snippet.advance >>= fun _ => Snippet.advance >>= fun _ => n)
      (Snippet.advance >>= fun _ => Snippet.advance >>= fun _ => n') := by
  intro us hus hts hk
  refine .advance hts ht fun hnext => ?_
  obtain ⟨u, vs, rfl⟩ := hnext.exists_cons
  have hu : u = s := hus
  refine .advance hnext (hu ▸ hs) fun hvs => ?_
  rw [length_cons] at hk ⊢
  exact (hn vs hvs (by omega)).mono (by omega)

/-- The token after the next one. After the last one there is none, which is not moved. -/
theorem peekSecond
    (hg : ∀ s', s'.kind = s.kind → p.FollowsAt T d k t s (h s) (h' s')) :
    p.FollowsAt T d k t s (peekSecond >>= h) (peekSecond >>= h') := by
  intro us hus hts hk
  subst hus
  refine hg (((t :: us).map (.move p.move)).tail.headD noToken) ?_ us rfl hts hk
  rcases us with _ | ⟨u, us⟩ <;> rfl

theorem arrowFollows (hc : ∀ b, p.FollowsAt T d k t s (c b) (c' b)) :
    p.FollowsAt T d k t s (arrowFollows >>= c) (arrowFollows >>= c') :=
  fun us hus hts hk => .arrowFollows fun b => hc b us hus hts hk

end FollowsAt

namespace Advances

/-- Fewer tokens are left. -/
theorem mono (hm : p.Advances S k m m') (hi : i ≤ k) : p.Advances S i m m' :=
  fun ts hts hk => hm ts hts (hk.trans_le hi)

theorem lower (hm : p.Advances S (k + 1) m m') : p.Advances S k m m' :=
  hm.mono (Nat.le_succ k)

theorem follows (hm : p.Advances S k m m') : p.Follows S k m m' :=
  fun ts hts hk => (hm ts hts hk).mono (Nat.le_succ _)

/-- The first reader takes a token. -/
theorem bind (hm : p.Advances S (k + 1) m m')
    (hnone : HandsOn g g') (hg : p.Continues S T k g g') :
    p.Advances T (k + 1) (m >>= g) (m' >>= g') :=
  fun ts hts hk => (hm ts hts hk).andThen hnone hg (Nat.le_of_lt_succ hk)

/-- The same where the token need not be counted. -/
theorem bind_any (hm : p.Advances S k m m')
    (hnone : HandsOn g g') (hg : p.Continues S T k g g') :
    p.Advances T k (m >>= g) (m' >>= g') :=
  fun ts hts hk => (hm ts hts hk).andThen hnone hg hk.le

/-- The second reader takes a token. -/
theorem after (hm : p.Follows S k m m')
    (hnone : HandsOn g g')
    (hg : ∀ a, (p.clean → S.Proper a) → p.Advances T k (g (some a)) (g' (some (S.move p.move a)))) :
    p.Advances T k (m >>= g) (m' >>= g') := by
  intro ts hts hk
  refine .bind (hm ts hts hk) hnone fun a rest ha hrest hlen => ?_
  exact (hg a ha rest hrest (by omega)).mono (by omega)

theorem peek (hg : ∀ t s, p.Sees t s → p.FollowsAt T 0 k t s (h t) (h' (t.move p.move))) :
    p.Advances T k (peek >>= h) (peek >>= h') := by
  intro ts hts hk
  refine .peek hts fun t us hcons => ?_
  subst hcons
  exact hg t _ ⟨us, hts, rfl⟩ us rfl hts hk

theorem accept (h₁ : p.Follows T k (c true) (c' true))
    (h₂ : p.Advances T k (c false) (c' false)) :
    p.Advances T k (accept q >>= c) (accept q >>= c') := by
  intro ts hts hk
  refine .accept hts (fun us hus hlen => ?_) (h₂ ts hts hk)
  exact (h₁ us hus (by omega)).mono (by omega)

theorem accept_any (hc : ∀ b, p.Advances T k (c b) (c' b)) :
    p.Advances T k (Snippet.accept q >>= c) (Snippet.accept q >>= c') :=
  accept (hc true).follows (hc false)

theorem expect {why : Complaint} : p.Advances .plain k (expect q why) (expect q why) := by
  refine .peek fun t s _ => ?_
  rw [Token.isPunct_move]
  refine both_ite (fun hq => ?_) fun _ => .complain
  exact .advance_any (ne_done_of_isPunct hq) (.done rfl)

theorem expectWord {why : Complaint} :
    p.Advances .word k (expectWord why) (Snippet.expectWord why) := by
  refine .peek fun t s h => ?_
  rw [Token.kind_move]
  split
  · rename_i w hw
    exact .advance_any (by rw [hw]; simp) (.pure rfl (h.first hw))
  · exact .complain

theorem expectMemberName {why : Complaint} :
    p.Advances .plain k (expectMemberName why) (expectMemberName why) := by
  refine .peek fun t s _ => ?_
  rw [show memberName? (t.move p.move) = memberName? t from rfl]
  split
  · rename_i name hname
    have ht : t.kind ≠ .done := fun hdone => by simp [memberName?, hdone] at hname
    exact .advance_any ht (.done rfl)
  · exact .complain

end Advances

section Loops

variable {item item' : Step (Option α)} {seps : List Punct} {close sep : Punct} {why : Complaint}

theorem itemsLoop_inStep (hitem : p.Advances S k item item') (hn : n ≤ k) :
    p.Follows S.list n (itemsLoop seps close item n) (itemsLoop seps close item' n) := by
  induction n with
  | zero => exact .zero
  | succ n ih =>
    refine .sees fun _ => .isDone fun _ => both_ite (fun _ => .pure rfl (by simp)) fun _ => ?_
    -- the item takes a token, so the next round has fewer and a smaller bound is enough
    refine Advances.follows (.bind (hitem.mono hn) rfl fun a ha => .peek fun t s _ => ?_)
    rw [Token.isPunct_move]
    refine both_ite (fun hsep => ?_) fun _ => .of_follows (.pure rfl (by simpa using ha))
    obtain ⟨q, -, hq⟩ := any_eq_true.1 hsep
    refine .advance_any (ne_done_of_isPunct hq) (.bind (ih (by omega)) rfl fun as has => ?_)
    exact .pure rfl fun hp => forall_mem_cons.2 ⟨ha hp, has hp⟩

theorem listed_inStep (hitem : p.Advances S k item item') :
    p.Advances S.list k (listed close why item) (listed close why item') := by
  refine .after (.bounded fun n hn => itemsLoop_inStep hitem hn) rfl fun as has => ?_
  exact .bind_any .expect rfl fun _ _ => .pure rfl has

theorem followers_inStep (hitem : p.Advances S k item item') (hn : n ≤ k) :
    p.Follows S.list n (followers sep item n) (followers sep item' n) := by
  induction n with
  | zero => exact .zero
  | succ n ih =>
    -- both the separator and the item take a token, and one would be enough
    refine .accept (.take (hitem.mono (by omega)) rfl fun a ha => ?_) (.pure rfl (by simp))
    refine .bind (ih (by omega)) rfl fun as has => ?_
    exact .pure rfl fun hp => forall_mem_cons.2 ⟨ha hp, has hp⟩

theorem chain_inStep (hitem : p.Advances S k item item') :
    p.Advances S.list k (chain sep item) (chain sep item') := by
  refine .bind_any hitem rfl fun a ha => ?_
  refine .bind (.bounded fun n hn => followers_inStep hitem hn) rfl fun as has => ?_
  exact .pure rfl fun hp => forall_mem_cons.2 ⟨ha hp, has hp⟩

end Loops

end Pass

end Componentry.Snippet
