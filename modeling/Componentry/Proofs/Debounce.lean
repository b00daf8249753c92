import Componentry.Debounce
import Mathlib

/-!
# Bursts lose nothing and repeat nothing

A change starts a timer that ends the burst, and stops the timer before it. A timer that is stopped
may have run out already, so the end of a burst may come at any point after a timer was started,
and more than once for one timer at no harm. A batch is taken in one step; it is handed over later,
when other changes may have come and other batches may have been taken.

`Debouncer` is the state of this, with what was taken and handed over so far, and `Debouncer.after`
is one step. `Debouncer.Steps` says once what a step can do. The laws of whole runs are in
`debounce_conserves`: batches are in order and without repetition, each file stays until the next
batch and is in it, each file of a batch was added after the batch before it, and nothing is taken
after the end.
-/

namespace Componentry

open List

variable {file : String}

/-! ## Files in order -/

namespace Burst

theorem mem_insert {f : String} : ∀ {fs : List String}, f ∈ insert file fs ↔ f = file ∨ f ∈ fs
  | [] => by simp [insert]
  | g :: gs => by
    have ih : f ∈ insert file gs ↔ f = file ∨ f ∈ gs := mem_insert
    unfold insert
    split
    · simp
    · split
      · rename_i heq
        subst heq
        simp
      · rw [mem_cons, ih, mem_cons]
        tauto

/-- A file is put where the order wants it. -/
theorem sorted_insert : ∀ {fs : List String}, fs.Pairwise (· < ·) →
    (insert file fs).Pairwise (· < ·)
  | [], _ => by simp [insert]
  | g :: gs, h => by
    obtain ⟨hg, hgs⟩ := pairwise_cons.1 h
    unfold insert
    split
    · rename_i hlt
      -- all that follows comes after `g`, and `g` after the file
      refine pairwise_cons.2 ⟨?_, h⟩
      intro f hf
      rcases mem_cons.1 hf with rfl | hf
      · exact hlt
      · exact lt_trans hlt (hg f hf)
    · rename_i hlt
      split
      · exact h
      · rename_i hne
        have hgt : g < file := lt_of_le_of_ne (not_lt.1 hlt) (Ne.symm hne)
        refine pairwise_cons.2 ⟨?_, sorted_insert hgs⟩
        intro f hf
        rcases mem_insert.1 hf with rfl | hf
        · exact hgt
        · exact hg f hf

end Burst

/-! ## The steps -/

/-- A burst with its timers and its batches. -/
structure Debouncer where
  burst : Burst
  /-- How many timers were started; they are numbered from zero. -/
  timers : Nat
  /-- The batches that were taken, in order. -/
  taken : List (List String)
  /-- The batches that are taken and not yet handed over. -/
  inFlight : List (List String)
  /-- The batches that were handed over, in order. -/
  handed : List (List String)
  deriving DecidableEq, Repr

/-- What can happen next. -/
inductive DebounceEvent where
  /-- A file changes. -/
  | add (file : String)
  /-- A timer has run out. -/
  | fire (timer : Nat)
  /-- One of the batches that are taken is handed over. -/
  | hand (place : Nat)
  | stop
  deriving DecidableEq, Repr

namespace Debouncer

/-- Nothing has happened. -/
def start : Debouncer := ⟨Burst.empty, 0, [], [], []⟩

/-- The end of a burst: the files that wait are taken, if there are any. -/
def flush (s : Debouncer) : Debouncer :=
  match s.burst.flush with
  | (none, burst) => { s with burst }
  | (some batch, burst) =>
    { s with burst, taken := s.taken ++ [batch], inFlight := s.inFlight ++ [batch] }

/-- One step, if it is possible: only a timer that was started can run out, and only a batch that
is taken can be handed over. -/
def after (s : Debouncer) : DebounceEvent → Option Debouncer
  | .add file =>
    some { s with
      burst := s.burst.add file
      timers := if s.burst.stopped then s.timers else s.timers + 1 }
  | .fire timer => if timer < s.timers then some s.flush else none
  | .hand place =>
    s.inFlight[place]?.map fun batch =>
      { s with inFlight := s.inFlight.eraseIdx place, handed := s.handed ++ [batch] }
  | .stop => some { s with burst := s.burst.stop }

/-- Several steps. -/
def run (s : Debouncer) (events : List DebounceEvent) : Option Debouncer :=
  events.foldlM after s

/-- What a step can do. -/
inductive Steps (s : Debouncer) : DebounceEvent → Debouncer → Prop
  | added (file : String) (hs : s.burst.stopped = false) :
      Steps s (.add file)
        { s with burst := ⟨Burst.insert file s.burst.pending, false⟩, timers := s.timers + 1 }
  | dropped (file : String) (hs : s.burst.stopped = true) : Steps s (.add file) s
  | idle (timer : Nat) (h : s.burst.pending = [] ∨ s.burst.stopped = true) :
      Steps s (.fire timer) s
  | took (timer : Nat) (ht : timer < s.timers) (hp : s.burst.pending ≠ [])
      (hs : s.burst.stopped = false) :
      Steps s (.fire timer)
        { s with
          burst := ⟨[], false⟩
          taken := s.taken ++ [s.burst.pending]
          inFlight := s.inFlight ++ [s.burst.pending] }
  | handed (place : Nat) (batch : List String) (h : s.inFlight[place]? = some batch) :
      Steps s (.hand place)
        { s with inFlight := s.inFlight.eraseIdx place, handed := s.handed ++ [batch] }
  | stopped : Steps s .stop { s with burst := ⟨s.burst.pending, true⟩ }

variable {s s' s₁ : Debouncer} {e : DebounceEvent} {events : List DebounceEvent}

theorem steps_of_after (h : s.after e = some s') : Steps s e s' := by
  cases e with
  | add file =>
    cases h
    by_cases hs : s.burst.stopped = true
    · have hsame : s.burst.add file = s.burst := by simp [Burst.add, hs]
      rw [hsame, if_pos hs]
      exact .dropped file hs
    · rw [Bool.not_eq_true] at hs
      have hadd : s.burst.add file = ⟨Burst.insert file s.burst.pending, false⟩ := by
        simp [Burst.add, hs]
      rw [hadd, if_neg (by simp [hs])]
      exact .added file hs
  | fire timer =>
    simp only [after] at h
    split at h
    · rename_i ht
      cases h
      unfold flush
      by_cases hidle : s.burst.pending = [] ∨ s.burst.stopped = true
      · have hflush : s.burst.flush = (none, s.burst) := by
          rcases hidle with hp | hs
          · simp [Burst.flush, hp]
          · simp [Burst.flush, hs]
        rw [hflush]
        exact .idle timer hidle
      · obtain ⟨hp, hs⟩ := not_or.1 hidle
        rw [Bool.not_eq_true] at hs
        have hflush : s.burst.flush = (some s.burst.pending, ⟨[], false⟩) := by
          simp [Burst.flush, hp, hs]
        rw [hflush]
        exact .took timer ht hp hs
    · cases h
  | hand place =>
    obtain ⟨batch, hbatch, rfl⟩ := Option.map_eq_some_iff.1 h
    exact .handed place batch hbatch
  | stop =>
    cases h
    exact .stopped

theorem run_append {xs ys : List DebounceEvent} :
    s.run (xs ++ ys) = (s.run xs).bind fun s₁ => s₁.run ys := by
  unfold run
  rw [foldlM_append]
  rfl

theorem run_concat (h : s.run (events ++ [e]) = some s') :
    ∃ s₁, s.run events = some s₁ ∧ Steps s₁ e s' := by
  rw [run_append] at h
  obtain ⟨s₁, h₁, hlast⟩ := Option.bind_eq_some_iff.1 h
  refine ⟨s₁, h₁, steps_of_after ?_⟩
  simpa [run] using hlast

/-- A run is at `s₁` before one of its events. -/
theorem run_split {before later : List DebounceEvent}
    (h : s.run (before ++ e :: later) = some s') (hbefore : s.run before = some s₁) :
    ∃ s₂, Steps s₁ e s₂ ∧ s₂.run later = some s' := by
  rw [run_append, hbefore] at h
  change s₁.after e >>= (fun s₂ => s₂.run later) = some s' at h
  obtain ⟨s₂, he, hlater⟩ := Option.bind_eq_some_iff.1 h
  exact ⟨s₂, steps_of_after he, hlater⟩

/-- What holds at the start of a run and is kept by every step holds at its end. The property may
speak of the events so far. -/
theorem run_induction {P : List DebounceEvent → Debouncer → Prop} (h₀ : P [] s)
    (hstep : ∀ {events e s₁ s₂}, s.run events = some s₁ → P events s₁ → Steps s₁ e s₂ →
      P (events ++ [e]) s₂) :
    ∀ {events : List DebounceEvent} {s' : Debouncer}, s.run events = some s' → P events s' := by
  intro events
  induction events using reverseRecOn with
  | nil =>
    intro s' h
    cases h
    exact h₀
  | append_singleton events e ih =>
    intro s' h
    obtain ⟨s₁, h₁, he⟩ := run_concat h
    exact hstep h₁ (ih h₁) he

/-! ## What runs keep -/

/-- Files wait in order, and batches are taken in order. -/
theorem run_sorted (h : start.run events = some s) :
    s.burst.pending.Pairwise (· < ·) ∧ ∀ batch ∈ s.taken, batch.Pairwise (· < ·) := by
  refine run_induction (P := fun _ s => s.burst.pending.Pairwise (· < ·) ∧
    ∀ batch ∈ s.taken, batch.Pairwise (· < ·)) ?_ ?_ h
  · exact ⟨.nil, by simp [start]⟩
  · intro events e s₁ s₂ _ hs₁ hstep
    obtain ⟨hp, ht⟩ := hs₁
    cases hstep with
    | added file hs => exact ⟨Burst.sorted_insert hp, ht⟩
    | took timer _ _ hs =>
      refine ⟨.nil, ?_⟩
      intro batch hb
      rcases mem_append.1 hb with hb | hb
      · exact ht batch hb
      · rw [mem_singleton.1 hb]
        exact hp
    | dropped | idle | handed | stopped => exact ⟨hp, ht⟩

/-- Each batch that is taken is handed over at most once, and no other is. -/
theorem run_handed (h : start.run events = some s) : (s.handed ++ s.inFlight).Perm s.taken := by
  refine run_induction (P := fun _ s => (s.handed ++ s.inFlight).Perm s.taken) ?_ ?_ h
  · exact .refl _
  · intro events e s₁ s₂ _ hperm hstep
    cases hstep with
    | took timer _ _ hs =>
      rw [← append_assoc]
      exact hperm.append_right _
    | handed place batch hbatch =>
      -- the batch moves from those in flight to those handed over
      obtain ⟨hlt, hget⟩ := List.getElem?_eq_some_iff.1 hbatch
      have hmove : (batch :: s₁.inFlight.eraseIdx place).Perm s₁.inFlight := by
        rw [← hget]
        exact getElem_cons_eraseIdx_perm hlt
      rw [append_assoc]
      exact (hmove.append_left s₁.handed).trans hperm
    | added | dropped | idle | stopped => exact hperm

/-- From a state in which a file waits: as long as no batch is taken it waits, and it is in the
first that is taken. -/
theorem run_keeps (hfile : file ∈ s₁.burst.pending) (h : s₁.run events = some s) :
    ∃ batches, s.taken = s₁.taken ++ batches ∧ ((batches = [] ∧ file ∈ s.burst.pending) ∨
        ∃ first rest, batches = first :: rest ∧ file ∈ first) := by
  refine run_induction (P := fun _ s => ∃ batches, s.taken = s₁.taken ++ batches ∧
    ((batches = [] ∧ file ∈ s.burst.pending) ∨
      ∃ first rest, batches = first :: rest ∧ file ∈ first)) ?_ ?_ h
  · exact ⟨[], by simp, Or.inl ⟨rfl, hfile⟩⟩
  · rintro events e s₂ s₃ - ⟨batches, htaken, hwhere⟩ hstep
    cases hstep with
    | added other hs =>
      refine ⟨batches, htaken, hwhere.imp_left ?_⟩
      rintro ⟨hnone, hmem⟩
      exact ⟨hnone, Burst.mem_insert.2 (.inr hmem)⟩
    | took timer _ _ hs =>
      refine ⟨batches ++ [s₂.burst.pending], ?_, Or.inr ?_⟩
      · rw [htaken, append_assoc]
      · rcases hwhere with ⟨rfl, hmem⟩ | ⟨first, rest, rfl, hmem⟩
        · exact ⟨s₂.burst.pending, [], rfl, hmem⟩
        · exact ⟨first, rest ++ [s₂.burst.pending], rfl, hmem⟩
    | dropped | idle | handed | stopped => exact ⟨batches, htaken, hwhere⟩

/-- The file was added, before the end, at a point where just these batches had been taken. -/
def AddedAt (events : List DebounceEvent) (batches : List (List String)) (file : String) : Prop :=
  ∃ before later s₀, events = before ++ .add file :: later ∧ start.run before = some s₀ ∧
    s₀.burst.stopped = false ∧ s₀.taken = batches

theorem AddedAt.concat {batches : List (List String)}
    (h : AddedAt events batches file) (e : DebounceEvent) :
    AddedAt (events ++ [e]) batches file := by
  obtain ⟨before, later, s₀, rfl, hrun, hs, ht⟩ := h
  exact ⟨before, later ++ [e], s₀, by simp, hrun, hs, ht⟩

/-- Files that wait were added after the last batch, and the files of a batch after the one before
it. -/
theorem run_added (h : start.run events = some s) :
    (∀ file ∈ s.burst.pending, AddedAt events s.taken file) ∧
      ∀ earlier batch later, s.taken = earlier ++ batch :: later →
        ∀ file ∈ batch, AddedAt events earlier file := by
  refine run_induction (P := fun events s => (∀ file ∈ s.burst.pending,
    AddedAt events s.taken file) ∧ ∀ earlier batch later, s.taken = earlier ++ batch :: later →
      ∀ file ∈ batch, AddedAt events earlier file) ?_ ?_ h
  · simp [start, Burst.empty]
  · rintro events e s₁ s₂ hrun ⟨hpending, htaken⟩ hstep
    -- what was known of the events so far is known with one more
    have hp : ∀ file ∈ s₁.burst.pending, AddedAt (events ++ [e]) s₁.taken file :=
      fun file hf => (hpending file hf).concat e
    have ht : ∀ earlier batch later, s₁.taken = earlier ++ batch :: later →
        ∀ file ∈ batch, AddedAt (events ++ [e]) earlier file :=
      fun earlier batch later heq file hf => (htaken earlier batch later heq file hf).concat e
    cases hstep with
    | added file hs =>
      refine ⟨?_, ht⟩
      intro f hf
      rcases Burst.mem_insert.1 hf with rfl | hf
      · exact ⟨events, [], s₁, rfl, hrun, hs, rfl⟩
      · exact hp f hf
    | took timer _ _ hs =>
      refine ⟨by simp, ?_⟩
      intro earlier batch later heq f hf
      rcases eq_nil_or_concat later with rfl | ⟨rest, last, rfl⟩
      · obtain ⟨rfl, hbatch⟩ := append_inj' heq rfl
        rw [← singleton_inj.1 hbatch] at hf
        exact hp f hf
      · have hinit : s₁.taken = earlier ++ batch :: rest := by
          have hshift : earlier ++ batch :: (rest ++ [last]) =
              (earlier ++ batch :: rest) ++ [last] := by simp
          rw [concat_eq_append, hshift] at heq
          exact append_inj_left' heq rfl
        exact ht earlier batch rest hinit f hf
    | dropped | idle | handed | stopped => exact ⟨hp, ht⟩

/-- Nothing is taken after the end. -/
theorem run_stopped (hs : s₁.burst.stopped = true) (h : s₁.run events = some s) :
    s.taken = s₁.taken := by
  refine (run_induction (P := fun _ s => s.burst.stopped = true ∧ s.taken = s₁.taken) ?_ ?_ h).2
  · exact ⟨hs, rfl⟩
  · rintro events e s₂ s₃ - ⟨hs₂, ht⟩ hstep
    cases hstep with
    | added file hrunning | took timer _ _ hrunning => simp [hs₂] at hrunning
    | dropped | idle | handed => exact ⟨hs₂, ht⟩
    | stopped => exact ⟨rfl, ht⟩

/-- Files wait only after a timer was started. -/
theorem run_timers (h : start.run events = some s)
    (hp : s.burst.pending ≠ []) : 0 < s.timers := by
  refine run_induction (P := fun _ s => s.burst.pending ≠ [] → 0 < s.timers) ?_ ?_ h hp
  · intro hne
    exact absurd rfl hne
  · intro events e s₁ s₂ _ hs₁ hstep
    cases hstep with
    | added => exact fun _ => Nat.succ_pos _
    | took => exact fun hne => absurd rfl hne
    | dropped | idle | handed | stopped => exact hs₁

/-- Before the end, any timer that runs out takes all that waits. -/
theorem after_fire (hp : s.burst.pending ≠ []) (hs : s.burst.stopped = false)
    {timer : Nat} (ht : timer < s.timers) :
    ∃ s', s.after (.fire timer) = some s' ∧ s'.taken = s.taken ++ [s.burst.pending] ∧
      s'.burst.pending = [] := by
  refine ⟨s.flush, if_pos ht, ?_⟩
  have hflush : s.burst.flush = (some s.burst.pending, ⟨[], false⟩) := by
    simp [Burst.flush, hp, hs]
  unfold flush
  rw [hflush]
  exact ⟨rfl, rfl⟩

end Debouncer

open Debouncer

/-- Every run of changes, timers that run out, batches that are handed over and the end. The batches
handed over are in order without repetition, and each was taken and is handed over once. A file that
is added before the end waits, also after the end, until a batch is taken, and is in the first that
is taken. A batch holds only files that were added when exactly the batches before it had been
taken. After the end no batch is taken; before it, while files wait, some timer was started, and any
such timer takes them when it runs out. -/
theorem debounce_conserves {events : List DebounceEvent} {s : Debouncer}
    (h : start.run events = some s) :
    (∀ batch ∈ s.handed, batch.Pairwise (· < ·)) ∧
    (s.handed ++ s.inFlight).Perm s.taken ∧
    (∀ before file later s₁, events = before ++ .add file :: later →
      start.run before = some s₁ → s₁.burst.stopped = false →
        ∃ batches, s.taken = s₁.taken ++ batches ∧ ((batches = [] ∧ file ∈ s.burst.pending) ∨
            ∃ first rest, batches = first :: rest ∧ file ∈ first)) ∧
    (∀ earlier batch later, s.taken = earlier ++ batch :: later →
      ∀ file ∈ batch, ∃ before rest s₀, events = before ++ .add file :: rest ∧
        start.run before = some s₀ ∧ s₀.burst.stopped = false ∧ s₀.taken = earlier) ∧
    (∀ before later s₁, events = before ++ .stop :: later →
      start.run before = some s₁ → s.taken = s₁.taken) ∧
    (s.burst.pending ≠ [] → s.burst.stopped = false → 0 < s.timers ∧
      ∀ timer < s.timers, ∃ s', s.after (.fire timer) = some s' ∧
        s'.taken = s.taken ++ [s.burst.pending] ∧ s'.burst.pending = []) := by
  have hperm := run_handed h
  refine ⟨?_, hperm, ?_, (run_added h).2, ?_, ?_⟩
  · intro batch hb
    exact (run_sorted h).2 batch (hperm.subset (mem_append_left _ hb))
  · intro before file later s₁ heq hbefore hs
    subst heq
    obtain ⟨s₂, hadd, hlater⟩ := run_split h hbefore
    cases hadd with
    | added _ _ =>
      have hwaits : file ∈ Burst.insert file s₁.burst.pending :=
        Burst.mem_insert.2 (.inl rfl)
      have hkept := run_keeps hwaits hlater
      exact hkept
    | dropped _ hstopped => simp [hs] at hstopped
  · intro before later s₁ heq hbefore
    subst heq
    obtain ⟨s₂, hstop, hlater⟩ := run_split h hbefore
    cases hstop with
    | stopped =>
      have hsame := run_stopped rfl hlater
      exact hsame
  · intro hp hs
    exact ⟨run_timers h hp, fun timer ht => after_fire hp hs ht⟩

/-- The first timer runs out although it was stopped, a file is added before the batch is handed
over, and the last timer runs out after the end. -/
theorem debounce_conserves_stale :
    start.run [.add "b", .add "a", .fire 0, .add "c", .hand 0, .fire 1, .stop, .fire 2] =
      some ⟨⟨[], true⟩, 3, [["a", "b"], ["c"]], [["c"]], [["a", "b"]]⟩ ∧
    (∀ batch ∈ [["a", "b"]], batch.Pairwise (· < ·)) ∧
    ∃ batches, [["a", "b"], ["c"]] = batches ∧ ((batches = [] ∧ "b" ∈ ([] : List String)) ∨
        ∃ first rest, batches = first :: rest ∧ "b" ∈ first) := by
  have hrun : start.run
      [.add "b", .add "a", .fire 0, .add "c", .hand 0, .fire 1, .stop, .fire 2] =
        some ⟨⟨[], true⟩, 3, [["a", "b"], ["c"]], [["c"]], [["a", "b"]]⟩ := by
    decide
  obtain ⟨hsorted, -, hkept, -⟩ := debounce_conserves hrun
  exact ⟨hrun, hsorted, hkept [] "b" _ start rfl rfl rfl⟩

end Componentry
