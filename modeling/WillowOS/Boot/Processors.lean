import WillowOS.Lib.Run
import Mathlib.Logic.Function.Basic
import Mathlib.Tactic.Common

/-!
# Starting the other processors

`init_mp` goes through the list of the processors. It gives each one the address of `start_ap` and
waits until `smp_ticket` is the index of the processor, before it goes on to the next. A processor
that was given the address initialises itself, and increments the ticket at the end. The list also
has the processor that runs `init_mp`, which does not start again.

The two sides run at the same time, and an increment is a load and a store: a run is any list of
the steps that one of them can make (`WillowOS.Boot.step`). If `init_mp` runs on the first
processor of the list, the processors initialise themselves one at a time and no increment is lost
(`WillowOS.Boot.Orderly`), and so `init_mp` can always still come to its end. If it runs on another
one, the ticket is ahead of the index as soon as the first processor is faster than the loop, and
nothing takes it back: whether `init_mp` can hang is a matter of the order of the list alone
(**`WillowOS.Boot.canFinish_iff`**).
-/

namespace WillowOS

namespace Boot

/-- Where `init_mp` is, with its variable `i`. -/
inductive Loop
  /-- Before the address is written. -/
  | write (i : ℕ)
  /-- In the `while` loop. -/
  | wait (i : ℕ)
  | done
deriving DecidableEq

/-- Where a processor is. -/
inductive Phase
  | parked
  /-- It was given the address. -/
  | released
  /-- In `start_ap`, before the increment. -/
  | initialising
  /-- In the increment, with the ticket it loaded. -/
  | loaded (ticket : ℕ)
  | up
deriving DecidableEq

/-- `n` processors, of which `bsp` runs `init_mp`. -/
structure Machine where
  n : ℕ
  bsp : ℕ

structure State where
  loop : Loop
  phase : ℕ → Phase
  /-- `smp_ticket`. -/
  ticket : ℕ

/-- A processor gets to another place. -/
def State.setPhase (s : State) (j : ℕ) (ph : Phase) : State :=
  { s with phase := Function.update s.phase j ph }

inductive Event
  /-- `init_mp` makes a step, and is where it was if it waits in vain. -/
  | loop
  /-- A processor makes a step. -/
  | processor (j : ℕ)
deriving DecidableEq

/-- The start of the loop for the index `i`, or its end. -/
def enter (m : Machine) (i : ℕ) : Loop := if i < m.n then .write i else .done

/-- Before `init_mp`. -/
def init (m : Machine) : State := ⟨enter m 0, fun _ => .parked, 0⟩

def step (m : Machine) (s : State) : Event → Option State
  | .loop =>
    match s.loop with
    | .write i => some { s.setPhase i .released with loop := .wait i }
    | .wait i => some (if s.ticket = i then { s with loop := enter m (i + 1) } else s)
    | .done => none
  | .processor j =>
    match s.phase j with
    | .parked => none
    -- the processor that runs `init_mp` takes no notice
    | .released => if j = m.bsp then none else some (s.setPhase j .initialising)
    | .initialising => some (s.setPhase j (.loaded s.ticket))
    | .loaded v => some { s.setPhase j .up with ticket := v + 1 }
    | .up => none

/-- A state that some order of the steps leads to. -/
def Reachable (m : Machine) (s : State) : Prop :=
  ∃ es : List Event, es.foldlM (step m) (init m) = some s

/-- Some order of the further steps brings `init_mp` to its end. -/
def CanFinish (m : Machine) (s : State) : Prop :=
  ∃ (es : List Event) (t : State), es.foldlM (step m) s = some t ∧ t.loop = .done

variable {m : Machine} {s t : State} {i j : ℕ} {e : Event}

/-! ### The steps -/

theorem phase_setPhase_self {ph : Phase} : (s.setPhase j ph).phase j = ph :=
  Function.update_self ..

theorem phase_setPhase_of_ne {ph : Phase} (h : i ≠ j) : (s.setPhase j ph).phase i = s.phase i :=
  Function.update_of_ne h ..

theorem step_of_write (h : s.loop = .write i) :
    step m s .loop = some { s.setPhase i .released with loop := .wait i } := by
  rw [step, h]

theorem step_of_wait (h : s.loop = .wait i) :
    step m s .loop = some (if s.ticket = i then { s with loop := enter m (i + 1) } else s) := by
  rw [step, h]

theorem step_of_parked (h : s.phase j = .parked) : step m s (.processor j) = none := by
  rw [step, h]

theorem step_of_released (h : s.phase j = .released) (hj : j ≠ m.bsp) :
    step m s (.processor j) = some (s.setPhase j .initialising) := by
  rw [step, h]
  exact if_neg hj

theorem step_of_initialising (h : s.phase j = .initialising) :
    step m s (.processor j) = some (s.setPhase j (.loaded s.ticket)) := by
  rw [step, h]

theorem step_of_loaded {v : ℕ} (h : s.phase j = .loaded v) :
    step m s (.processor j) = some { s.setPhase j .up with ticket := v + 1 } := by
  rw [step, h]

theorem step_of_up (h : s.phase j = .up) : step m s (.processor j) = none := by
  rw [step, h]

/-! ### The first processor runs `init_mp` -/

/-- The processors before `i` are up, apart from the first one. -/
structure Settled (s : State) (i : ℕ) : Prop where
  up : ∀ j, 0 < j → j < i → s.phase j = .up
  first : 0 < i → s.phase 0 = .released

/-- A processor that was given the address and has not finished its increment. -/
def Busy (s : State) (i : ℕ) : Prop :=
  s.phase i = .released ∨ s.phase i = .initialising ∨ s.phase i = .loaded (i - 1)

/-- **One processor after the other**: those before the index of the loop are up, those after it
are parked, and the ticket counts the ones that are up. -/
inductive Orderly (m : Machine) (s : State) : Prop
  | write (i : ℕ) (hloop : s.loop = .write i) (hi : i < m.n) (hs : Settled s i)
      (hrest : ∀ j, i ≤ j → s.phase j = .parked) (ht : s.ticket = i - 1)
  | first (hloop : s.loop = .wait 0) (hn : 0 < m.n) (h0 : s.phase 0 = .released)
      (hrest : ∀ j, 0 < j → s.phase j = .parked) (ht : s.ticket = 0)
  | busy (i : ℕ) (hloop : s.loop = .wait i) (hi : i < m.n) (hpos : 0 < i) (hs : Settled s i)
      (hrest : ∀ j, i < j → s.phase j = .parked) (hbusy : Busy s i) (ht : s.ticket = i - 1)
  | up (i : ℕ) (hloop : s.loop = .wait i) (hi : i < m.n) (hpos : 0 < i) (hs : Settled s i)
      (hrest : ∀ j, i < j → s.phase j = .parked) (hup : s.phase i = .up) (ht : s.ticket = i)
  | done (hloop : s.loop = .done) (hs : Settled s m.n)
      (hrest : ∀ j, m.n ≤ j → s.phase j = .parked) (ht : s.ticket = m.n - 1)

/-- The loop comes to the index `i` with the processors before it settled. -/
theorem orderly_enter (hi : i ≤ m.n) (hs : Settled s i)
    (hrest : ∀ j, i ≤ j → s.phase j = .parked) (ht : s.ticket = i - 1) :
    Orderly m { s with loop := enter m i } := by
  rcases Nat.lt_or_ge i m.n with hlt | hge
  · exact .write i (if_pos hlt) hlt ⟨hs.up, hs.first⟩ hrest ht
  · obtain rfl : i = m.n := by omega
    exact .done (if_neg (Nat.lt_irrefl _)) ⟨hs.up, hs.first⟩ hrest ht

theorem orderly_init : Orderly m (init m) :=
  orderly_enter (s := ⟨.done, fun _ => .parked, 0⟩) (Nat.zero_le _)
    ⟨fun _ _ h => absurd h (Nat.not_lt_zero _), fun h => absurd h (Nat.lt_irrefl 0)⟩
    (fun _ _ => rfl) rfl

/-- Processors that are settled make no more steps. -/
theorem Settled.step_eq_none (hs : Settled s i) (hb : m.bsp = 0) (hj : j < i) :
    step m s (.processor j) = none := by
  rcases Nat.eq_zero_or_pos j with rfl | hpos
  · rw [step, hs.first hj]
    exact if_pos hb.symm
  · exact step_of_up (hs.up j hpos hj)

/-- What other processors do does not unsettle those before `i`. -/
theorem Settled.setPhase (hs : Settled s i) (hj : i ≤ j) {ph : Phase} :
    Settled (s.setPhase j ph) i :=
  ⟨fun k hk hki => (phase_setPhase_of_ne (by omega)).trans (hs.up k hk hki),
    fun hpos => (phase_setPhase_of_ne (by omega)).trans (hs.first hpos)⟩

/-- Only the phases are looked at. -/
theorem Settled.congr (hs : Settled s i) (h : t.phase = s.phase) : Settled t i :=
  ⟨fun j h1 h2 => h ▸ hs.up j h1 h2, fun hpos => h ▸ hs.first hpos⟩

theorem parked_setPhase (hrest : ∀ j, i < j → s.phase j = .parked) (ph : Phase) :
    ∀ j, i < j → (s.setPhase i ph).phase j = .parked := fun j hj =>
  (phase_setPhase_of_ne (by omega)).trans (hrest j hj)

/-- A step of the loop. -/
theorem orderly_step_loop (h : Orderly m s) (ht : step m s .loop = some t) : Orderly m t := by
  cases h with
  | write i hloop hi hs hrest htk =>
    obtain rfl := Option.some.inj ((step_of_write hloop).symm.trans ht)
    have hrest' := parked_setPhase (fun j (hj : i < j) => hrest j (by omega)) .released
    have hself : (s.setPhase i .released).phase i = .released := phase_setPhase_self
    rcases Nat.eq_zero_or_pos i with rfl | hpos
    · exact .first rfl hi hself hrest' htk
    · exact .busy i rfl hi hpos ((hs.setPhase (Nat.le_refl i)).congr rfl) hrest'
        (Or.inl hself) htk
  | first hloop hn h0 hrest htk =>
    obtain rfl := Option.some.inj ((step_of_wait hloop).symm.trans ht)
    rw [if_pos htk]
    refine orderly_enter hn ⟨fun j h1 h2 => ?_, fun _ => h0⟩ (fun j hj => hrest j hj) htk
    omega
  | busy i hloop hi hpos hs hrest hbusy htk =>
    obtain rfl := Option.some.inj ((step_of_wait hloop).symm.trans ht)
    rw [if_neg (by omega)]
    exact .busy i hloop hi hpos hs hrest hbusy htk
  | up i hloop hi hpos hs hrest hup htk =>
    obtain rfl := Option.some.inj ((step_of_wait hloop).symm.trans ht)
    rw [if_pos htk]
    refine orderly_enter hi ⟨fun j h1 h2 => ?_, fun _ => hs.first hpos⟩ (fun j hj => hrest j hj) htk
    rcases Nat.lt_succ_iff_lt_or_eq.mp h2 with h2 | rfl
    · exact hs.up j h1 h2
    · exact hup
  | done hloop =>
    rw [step, hloop] at ht
    cases ht

/-- The processor on its way makes one of three steps. -/
theorem Busy.step_cases (h : Busy s i) (hpos : 0 < i) (hb : m.bsp = 0) (htk : s.ticket = i - 1) :
    (s.phase i = .released ∧ step m s (.processor i) = some (s.setPhase i .initialising)) ∨
      (s.phase i = .initialising ∧
        step m s (.processor i) = some (s.setPhase i (.loaded (i - 1)))) ∨
      (s.phase i = .loaded (i - 1) ∧
        step m s (.processor i) = some { s.setPhase i .up with ticket := i }) := by
  rcases h with h | h | h
  · exact Or.inl ⟨h, step_of_released h (by omega)⟩
  · refine Or.inr (Or.inl ⟨h, ?_⟩)
    rw [step_of_initialising h, htk]
  · refine Or.inr (Or.inr ⟨h, ?_⟩)
    rw [step_of_loaded h, Nat.sub_add_cancel hpos]

/-- **Every step keeps the order.** -/
theorem orderly_step (hb : m.bsp = 0) (h : Orderly m s) (ht : step m s e = some t) :
    Orderly m t := by
  cases e with
  | loop => exact orderly_step_loop h ht
  | processor j =>
    -- only a busy processor makes a step
    have hnone (hn : step m s (.processor j) = none) : Orderly m t := by
      rw [hn] at ht
      cases ht
    cases h with
    | write i hloop hi hs hrest htk =>
      rcases Nat.lt_or_ge j i with hj | hj
      · exact hnone (hs.step_eq_none hb hj)
      · exact hnone (step_of_parked (hrest j hj))
    | first hloop hn h0 hrest htk =>
      rcases Nat.eq_zero_or_pos j with rfl | hj
      · refine hnone ?_
        rw [step, h0]
        exact if_pos hb.symm
      · exact hnone (step_of_parked (hrest j hj))
    | busy i hloop hi hpos hs hrest hbusy htk =>
      rcases Nat.lt_trichotomy j i with hj | rfl | hj
      · exact hnone (hs.step_eq_none hb hj)
      · rcases hbusy.step_cases hpos hb htk with ⟨-, h⟩ | ⟨-, h⟩ | ⟨-, h⟩
        · obtain rfl := Option.some.inj (h.symm.trans ht)
          exact .busy j hloop hi hpos (hs.setPhase (Nat.le_refl j)) (parked_setPhase hrest _)
            (Or.inr (Or.inl phase_setPhase_self)) htk
        · obtain rfl := Option.some.inj (h.symm.trans ht)
          exact .busy j hloop hi hpos (hs.setPhase (Nat.le_refl j)) (parked_setPhase hrest _)
            (Or.inr (Or.inr phase_setPhase_self)) htk
        · obtain rfl := Option.some.inj (h.symm.trans ht)
          exact .up j hloop hi hpos ((hs.setPhase (Nat.le_refl j)).congr rfl)
            (parked_setPhase hrest _) phase_setPhase_self rfl
      · exact hnone (step_of_parked (hrest j hj))
    | up i hloop hi hpos hs hrest hup htk =>
      rcases Nat.lt_trichotomy j i with hj | rfl | hj
      · exact hnone (hs.step_eq_none hb hj)
      · exact hnone (step_of_up hup)
      · exact hnone (step_of_parked (hrest j hj))
    | done hloop hs hrest htk =>
      rcases Nat.lt_or_ge j m.n with hj | hj
      · exact hnone (hs.step_eq_none hb hj)
      · exact hnone (step_of_parked (hrest j hj))

theorem orderly_of_reachable (hb : m.bsp = 0) (h : Reachable m s) : Orderly m s := by
  obtain ⟨es, hes⟩ := h
  exact run_inv (fun _ _ _ hs ht => orderly_step hb hs ht) orderly_init hes

/-! ### The steps that are left -/

/-- How far a processor has come. -/
def progress : Phase → ℕ
  | .parked | .released => 0
  | .initialising => 1
  | .loaded _ => 2
  | .up => 3

/-- A bound on the steps that `init_mp` still needs, its own and those of the others. -/
def left (m : Machine) (s : State) : ℕ :=
  match s.loop with
  | .write i => 6 * (m.n - i)
  | .wait i => 6 * (m.n - i) - 1 - progress (s.phase i)
  | .done => 0

theorem left_of_write (h : s.loop = .write i) : left m s = 6 * (m.n - i) := by rw [left, h]

theorem left_of_wait (h : s.loop = .wait i) :
    left m s = 6 * (m.n - i) - 1 - progress (s.phase i) := by rw [left, h]

theorem left_of_done (h : s.loop = .done) : left m s = 0 := by rw [left, h]

theorem left_enter : left m { s with loop := enter m i } ≤ 6 * (m.n - i) := by
  by_cases hi : i < m.n
  · exact Nat.le_of_eq (by rw [enter, if_pos hi, left_of_write rfl])
  · rw [enter, if_neg hi, left_of_done rfl]
    exact Nat.zero_le _

/-- **Some step always brings the end closer.** -/
theorem exists_step_left_lt (hb : m.bsp = 0) (h : Orderly m s) (hnd : s.loop ≠ .done) :
    ∃ e t, step m s e = some t ∧ left m t < left m s := by
  cases h with
  | write i hloop hi hs hrest htk =>
    refine ⟨.loop, _, step_of_write hloop, ?_⟩
    have hw := @left_of_wait m { s.setPhase i .released with loop := .wait i } i rfl
    rw [left_of_write hloop, hw]
    omega
  | first hloop hn h0 hrest htk =>
    have hstep := (step_of_wait (m := m) hloop).trans (congrArg some (if_pos htk))
    refine ⟨.loop, _, hstep, Nat.lt_of_le_of_lt left_enter ?_⟩
    rw [left_of_wait hloop, h0, progress]
    omega
  | busy i hloop hi hpos hs hrest hbusy htk =>
    -- each of the three steps counts
    have hlt (u : State) (hl : u.loop = s.loop)
        (hph : progress (s.phase i) < progress (u.phase i)) (hle : progress (u.phase i) ≤ 3) :
        left m u < left m s := by
      rw [left_of_wait hloop, left_of_wait (hl.trans hloop)]
      omega
    have hself (ph : Phase) : (s.setPhase i ph).phase i = ph := phase_setPhase_self
    rcases hbusy.step_cases hpos hb htk with ⟨hp, h⟩ | ⟨hp, h⟩ | ⟨hp, h⟩
    · refine ⟨_, _, h, hlt _ rfl ?_ ?_⟩ <;> simp [hself, hp, progress]
    · refine ⟨_, _, h, hlt _ rfl ?_ ?_⟩ <;> simp [hself, hp, progress]
    · refine ⟨_, _, h, hlt _ rfl ?_ ?_⟩ <;> simp [hself, hp, progress]
  | up i hloop hi hpos hs hrest hup htk =>
    have hstep := (step_of_wait (m := m) hloop).trans (congrArg some (if_pos htk))
    refine ⟨.loop, _, hstep, Nat.lt_of_le_of_lt left_enter ?_⟩
    rw [left_of_wait hloop, hup, progress]
    omega
  | done hloop => exact absurd hloop hnd

theorem canFinish_of_orderly (hb : m.bsp = 0) (h : Orderly m s) : CanFinish m s := by
  -- by induction on the steps that are left
  induction hk : left m s using Nat.strongRecOn generalizing s with
  | _ k ih =>
    by_cases hd : s.loop = .done
    · exact ⟨[], s, rfl, hd⟩
    · obtain ⟨e, u, hstep, hlt⟩ := exists_step_left_lt hb h hd
      obtain ⟨es, t, hrun, ht⟩ := ih _ (hk ▸ hlt) (orderly_step hb h hstep) rfl
      exact ⟨e :: es, t, run_cons.mpr ⟨u, hstep, hrun⟩, ht⟩

/-! ### Another processor runs `init_mp` -/

/-- The loop waits for a ticket that has been given out. -/
def Stuck (s : State) : Prop := s.loop = .wait 0 ∧ 0 < s.ticket

theorem stuck_step (h : Stuck s) (ht : step m s e = some t) : Stuck t := by
  obtain ⟨hloop, hpos⟩ := h
  cases e with
  | loop =>
    obtain rfl := Option.some.inj ((step_of_wait hloop).symm.trans ht)
    rw [if_neg (by omega)]
    exact ⟨hloop, hpos⟩
  | processor j =>
    rw [step] at ht
    cases hph : s.phase j with
    | parked => rw [hph] at ht; cases ht
    | released =>
      rw [hph] at ht
      obtain ⟨-, ht⟩ := Option.ite_none_left_eq_some.mp ht
      obtain rfl := Option.some.inj ht
      exact ⟨hloop, hpos⟩
    | initialising =>
      rw [hph] at ht
      obtain rfl := Option.some.inj ht
      exact ⟨hloop, hpos⟩
    | loaded v =>
      rw [hph] at ht
      obtain rfl := Option.some.inj ht
      exact ⟨hloop, Nat.succ_pos v⟩
    | up => rw [hph] at ht; cases ht

theorem not_canFinish_of_stuck (h : Stuck s) : ¬CanFinish m s := by
  rintro ⟨es, t, hrun, hdone⟩
  have hstuck : Stuck t := run_inv (fun _ _ _ hs ht => stuck_step hs ht) h hrun
  rw [hstuck.1] at hdone
  cases hdone

/-- The first processor of the list is faster than the loop. -/
theorem exists_stuck (hn : m.bsp < m.n) (hb : m.bsp ≠ 0) : ∃ s, Reachable m s ∧ Stuck s := by
  have hinit : (init m).loop = .write 0 := if_pos (by omega)
  have hself : ((init m).setPhase 0 .released).phase 0 = .released := phase_setPhase_self
  -- the states on the way, with what is known of them
  obtain ⟨s₁, h₁, hloop₁, hphase₁, htk₁⟩ : ∃ s₁, step m (init m) .loop = some s₁ ∧
      s₁.loop = .wait 0 ∧ s₁.phase 0 = .released ∧ s₁.ticket = 0 :=
    ⟨_, step_of_write hinit, rfl, hself, rfl⟩
  have h₂ := step_of_released hphase₁ (Ne.symm hb)
  have h₃ := step_of_initialising (m := m) (s := s₁.setPhase 0 .initialising) (j := 0)
    phase_setPhase_self
  have h₄ := step_of_loaded (m := m) (j := 0)
    (s := (s₁.setPhase 0 .initialising).setPhase 0 (.loaded s₁.ticket)) phase_setPhase_self
  exact ⟨_, ⟨[.loop, .processor 0, .processor 0, .processor 0], run_cons.mpr ⟨_, h₁,
    run_cons.mpr ⟨_, h₂, run_cons.mpr ⟨_, h₃, run_cons.mpr ⟨_, h₄, rfl⟩⟩⟩⟩⟩, hloop₁,
    Nat.succ_pos _⟩

/-- **Whether `init_mp` can hang depends on the order of the list**: it can come to its end from
every state that the processors can get to together, exactly if it runs on the first one. -/
theorem canFinish_iff (hn : m.bsp < m.n) : (∀ s, Reachable m s → CanFinish m s) ↔ m.bsp = 0 := by
  refine ⟨fun h => ?_, fun hb s hs => canFinish_of_orderly hb (orderly_of_reachable hb hs)⟩
  by_contra hb
  obtain ⟨s, hs, hstuck⟩ := exists_stuck hn hb
  exact not_canFinish_of_stuck hstuck (h s hs)

theorem canFinish_iff_four : (∀ s, Reachable ⟨4, 2⟩ s → CanFinish ⟨4, 2⟩ s) ↔ (2 : ℕ) = 0 :=
  canFinish_iff (m := ⟨4, 2⟩) (by decide)

/-- A processor is in `start_ap`, its increment included. -/
def Starting (s : State) (j : ℕ) : Prop :=
  s.phase j = .initialising ∨ ∃ v, s.phase j = .loaded v

theorem eq_of_starting (h : Orderly m s) (hj : Starting s j) : s.loop = .wait j := by
  have hphase : s.phase j ≠ .up ∧ s.phase j ≠ .parked ∧ s.phase j ≠ .released := by
    rcases hj with hj | ⟨v, hj⟩ <;> rw [hj] <;> exact ⟨by simp, by simp, by simp⟩
  -- a processor before `i` is up, or the first one, which was only given the address
  have hlt {i : ℕ} (hs : Settled s i) (hji : j < i) : False := by
    rcases Nat.eq_zero_or_pos j with rfl | hpos
    · exact hphase.2.2 (hs.first hji)
    · exact hphase.1 (hs.up j hpos hji)
  cases h with
  | write i hloop hi hs hrest htk =>
    rcases Nat.lt_or_ge j i with hji | hji
    · exact (hlt hs hji).elim
    · exact absurd (hrest j hji) hphase.2.1
  | first hloop hn h0 hrest htk =>
    rcases Nat.eq_zero_or_pos j with rfl | hpos
    · exact absurd h0 hphase.2.2
    · exact absurd (hrest j hpos) hphase.2.1
  | busy i hloop hi hpos hs hrest hbusy htk =>
    rcases Nat.lt_trichotomy j i with hji | rfl | hji
    · exact (hlt hs hji).elim
    · exact hloop
    · exact absurd (hrest j hji) hphase.2.1
  | up i hloop hi hpos hs hrest hup htk =>
    rcases Nat.lt_trichotomy j i with hji | rfl | hji
    · exact (hlt hs hji).elim
    · exact absurd hup hphase.1
    · exact absurd (hrest j hji) hphase.2.1
  | done hloop hs hrest htk =>
    rcases Nat.lt_or_ge j m.n with hji | hji
    · exact (hlt hs hji).elim
    · exact absurd (hrest j hji) hphase.2.1

/-- **Processors start one at a time**: if `init_mp` runs on the first one, no order of the steps
has two of them in `start_ap`, and when it has come to its end all are up and no increment of the
ticket was lost. -/
theorem starting_unique (hb : m.bsp = 0) (h : Reachable m s) :
    (∀ j k, Starting s j → Starting s k → j = k) ∧
      (s.loop = .done → s.ticket = m.n - 1 ∧ ∀ j, 0 < j → j < m.n → s.phase j = .up) := by
  have ho := orderly_of_reachable hb h
  refine ⟨fun j k hj hk => ?_, fun hd => ?_⟩
  · have hjk := (eq_of_starting ho hj).symm.trans (eq_of_starting ho hk)
    exact Loop.wait.inj hjk
  · cases ho with
    | write i hloop => rw [hloop] at hd; cases hd
    | first hloop => rw [hloop] at hd; cases hd
    | busy i hloop => rw [hloop] at hd; cases hd
    | up i hloop => rw [hloop] at hd; cases hd
    | done hloop hs hrest ht => exact ⟨ht, hs.up⟩

theorem starting_unique_four :
    ∃ s, Reachable ⟨4, 0⟩ s ∧ Starting s 1 ∧ ∀ k, Starting s k → 1 = k := by
  have hs : ∃ s, Reachable ⟨4, 0⟩ s ∧ Starting s 1 :=
    ⟨_, ⟨[.loop, .loop, .loop, .processor 1], rfl⟩, Or.inl rfl⟩
  obtain ⟨s, hs, h1⟩ := hs
  exact ⟨s, hs, h1, fun k => (starting_unique rfl hs).1 1 k h1⟩

end Boot

end WillowOS
