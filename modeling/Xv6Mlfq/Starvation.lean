import Mathlib.Algebra.BigOperators.Fin
import Mathlib.Algebra.Order.BigOperators.Group.Finset
import Xv6Mlfq.BoostLoop
import Xv6Mlfq.Clock
import Xv6Mlfq.Demotion
import Xv6Mlfq.RoundRobin

/-!
# Xv6Mlfq.Starvation — how long a process waits after a boost, on one CPU

After `priority_boost` a `RUNNABLE` process `v` is at priority 0, where the time slice is one tick: a
process that is charged leaves priority 0 and is not selected again while `v` waits.  The potential
`waiting v s` counts the other processes that can still be charged before `v` (`View.pending`).
Every charge takes one of them away, and only `fork` and `setprocpriority` add one (`pending_step`).
-/

namespace Xv6Mlfq

open CInt Lts Finset

/-! ## One slot -/

/-- The process may be charged before a process that waits at priority 0: it is fresh at priority 0, or
it runs and has not been charged since its dispatch. -/
def View.pending (v : View) : Bool :=
  v.proc.state ≠ .unused ∧ v.proc.state ≠ .used ∧
    (v.proc.priority = 0 ∧ v.proc.ticksUsed = 0 ∨ v.thread.uncharged = true)

/-- The section may make the process `pending`. -/
def View.joins (v : View) : LAct → Bool
  | .ready => true
  | .setpriority pid _ => v.proc.hasPid pid
  | _ => false

namespace View

variable {v v' : View} {a : LAct}

/-- A running process that has not been charged is pending. -/
theorem pending_of_uncharged (hv : v.Quantum) (hu : v.thread.uncharged = true) : v.pending = true := by
  have hst := hv.running (by cases hth : v.thread <;> rw [hth] at hu <;> first | rfl | cases hu)
  simp [pending, hst, hu]

/-- A `RUNNABLE` process at priority 0 is pending: its quantum there is unused. -/
theorem pending_of_runnable (hv : v.Quantum) (hst : v.proc.state = .runnable)
    (hp : v.proc.priority = 0) : v.pending = true := by
  have hoff : v.thread.isOff = true := hv.off.mpr (by simp [hst])
  have hne : v.proc.ticksUsed ≠ getTimeSlice v.proc.priority := fun hf => by
    rcases hv.full hf with h | h <;> rw [h] at hoff <;> cases hoff
  have ht := hv.ticks
  rw [hp, getTimeSlice_zero] at ht hne
  have h0 : v.proc.ticksUsed = 0 := by omega
  simp [pending, hst, hp, h0]

/-- Sections that keep the quantum and leave or make no slot `USED`. -/
theorem pending_frame (hp : v'.pending = true) (hs : v.proc.SameMlfq v'.proc)
    (hst : v.proc.state ≠ .unused ∧ v.proc.state ≠ .used)
    (ht : v'.thread.uncharged = true → v.thread.uncharged = true) : v.pending = true := by
  simp only [pending, decide_eq_true_eq, hs.priority, hs.ticksUsed] at hp ⊢
  exact ⟨hst.1, hst.2, hp.2.2.imp_right ht⟩

theorem not_pending_charge (hv : v.Quantum) :
    View.pending ⟨v.proc.mlfqCheckTimer, .charged⟩ = false := by
  have h1 := hv.ticks
  have h₂ := getTimeSlice_le v.proc.priority
  have hne : inc v.proc.ticksUsed ≠ 0 := by
    rw [inc_of_lt (by simp only [intMax]; omega)]
    omega
  simp [pending, Proc.mlfqCheckTimer, hne, Thread.uncharged]

/-- **What joins the waiting line**: a process that becomes pending has finished its `fork` or been
given a priority. -/
theorem pending_step (hv : v.Quantum) (he : v.Effect a v') (hb : a ≠ .boost)
    (hd : a = .dispatch → v.proc.priority = 0) (hp : v'.pending = true) :
    a ≠ .charge ∧ (v.pending = true ∨ v.joins a = true) := by
  cases he with
  | quiet hq =>
    refine ⟨hq.ne_charge, ?_⟩
    cases hq with
    | stay hs hst _ _ =>
      have hu : _ ≠ ProcState.unused ∧ _ ≠ ProcState.used ∧ _ := of_decide_eq_true hp
      refine .inl (pending_frame hp hs ?_ id)
      rcases hst with h | ⟨h, -⟩
      · rw [← h]; exact ⟨hu.1, hu.2.1⟩
      · rw [h]; decide
    | go _ _ hun _ _ _ => exact .inl (pending_of_uncharged hv hun)
    | count ht =>
      have hst := hv.running (by simp [ht, Thread.isOff])
      exact .inl (pending_frame hp v.proc.same_refl (by simp [hst]) (by simp [Thread.uncharged]))
    | keep ht _ =>
      have hst := hv.running (by simp [ht, Thread.isOff])
      exact .inl (pending_frame hp ⟨rfl, rfl, rfl, rfl, rfl, rfl⟩ (by simp [hst])
        (by simp [Thread.uncharged]))
    | exit ht => exact .inl (pending_of_uncharged hv (by rw [ht]; rfl))
    | ready _ => exact .inr rfl
  | boost _ => exact absurd rfl hb
  | dispatch hst => exact ⟨by simp, .inl (pending_of_runnable hv hst (hd rfl))⟩
  | charge _ => rw [not_pending_charge hv] at hp; cases hp
  | demote _ _ hp2 =>
    have h0 := hv.prio.1
    have hinc : inc v.proc.priority = v.proc.priority + 1 := inc_of_lt (by simp only [intMax]; omega)
    simp [pending, Thread.uncharged, hinc] at hp
    omega
  | renew _ _ hp2 =>
    simp [pending, Thread.uncharged] at hp
    omega
  | sleep ht => exact ⟨by simp, .inl (pending_of_uncharged hv (by rw [ht]; rfl))⟩
  | @alloc r pid _ =>
    cases r <;> simp [pending, Proc.alloc] at hp
  | free _ => simp [pending] at hp
  | setpriority hh _ _ => exact ⟨by simp, .inr hh⟩

/-- A process that waits at priority 0 and is neither dispatched nor given a priority. -/
theorem runnable_step (hv : v.Quantum) (he : v.Effect a v') (hst : v.proc.state = .runnable)
    (hpr : v.proc.priority = 0) (hd : a ≠ .dispatch)
    (hj : ∀ pid priority, a = .setpriority pid priority → v.proc.hasPid pid = false) :
    v'.proc.state = .runnable ∧ v'.proc.priority = 0 := by
  have hun : v.thread.uncharged = false := Thread.uncharged_of_isOff (hv.off.mpr (by simp [hst]))
  -- every section of the process itself needs its thread switched in
  have hoff : v.thread.isOff = true := hv.off.mpr (by simp [hst])
  cases he with
  | quiet hq =>
    refine ⟨?_, hq.same.priority.trans hpr⟩
    cases hq with
    | stay _ h _ _ =>
      rcases h with h | ⟨h, -⟩
      · exact h.trans hst
      · rw [hst] at h; cases h
    | go _ _ h _ _ _ => rw [hun] at h; cases h
    | count ht => rw [ht] at hoff; cases hoff
    | keep ht _ => rfl
    | exit ht => rw [ht] at hoff; cases hoff
    | ready _ => rfl
  | boost _ => exact ⟨hst, rfl⟩
  | dispatch _ => exact absurd rfl hd
  | charge ht | demote ht _ _ | renew ht _ _ | sleep ht => rw [ht] at hoff; cases hoff
  | alloc hu => rw [hst] at hu; cases hu
  | free hz => rw [hst] at hz; cases hz
  | setpriority hh _ _ => rw [hj _ _ rfl] at hh; cases hh

end View

/-! ## The waiting line -/

variable {C : ℕ}

/-- `e` is the dispatch of `p`. -/
def DispatchOf (s : Sys C) (e : Ev C) (p : Slot) : Prop :=
  e.act = .dispatch ∧ s.cpu e.cpu = .selected p

/-- The other processes that can still be charged before `v`. -/
def waiting (v : Slot) (s : Sys C) : Finset Slot :=
  (univ.erase v).filter fun j => (s.view j).pending = true

/-- `1` for the section in which a call of `setprocpriority` finds its process. -/
def setsOne (s : Sys C) (e : Ev C) : ℕ :=
  match e.act with
  | .setprocpriority j pid priority =>
    if 0 ≤ priority ∧ priority ≤ 2 ∧ (s.proc j).hasPid pid = true then 1 else 0
  | _ => 0

section Line

variable {s s' : Sys C} {e : Ev C} {v j : Slot}

theorem project_dispatch : s.project e j = .dispatch ↔ DispatchOf s e j := by
  obtain ⟨c, a⟩ := e
  cases a <;> simp only [Sys.project, DispatchOf] <;> (try split) <;> (try split_ifs) <;> simp_all

theorem project_ready (h : s.project e j = .ready) :
    e.act = .forkReady ∧ ∃ i, s.current e.cpu = some i ∧ s.forking i = .parented j := by
  obtain ⟨c, a⟩ := e
  cases a <;> simp only [Sys.project] at h <;> (try split at h) <;> (try split_ifs at h) <;> simp_all

/-- The sections that add a process to the line. -/
theorem joins_project (h : (s.view j).joins (s.project e j) = true) :
    (e.act = .forkReady ∧ ∃ i, s.current e.cpu = some i ∧ s.forking i = .parented j) ∨
      SetsPriority s e j := by
  cases hp : s.project e j <;> rw [hp] at h <;> try cases h
  case ready => exact .inl (project_ready hp)
  case setpriority pid priority =>
    obtain ⟨hact, h0, h2⟩ := project_setpriority.mp hp
    exact .inr ⟨pid, priority, hact, h0, h2, h⟩

theorem setsOne_of_sets (h : SetsPriority s e j) : setsOne s e = 1 := by
  obtain ⟨pid, priority, hact, h0, h2, hh⟩ := h
  simp [setsOne, hact, h0, h2, hh]

/-- A section adds at most the one process that its `fork` or `setprocpriority` is about. -/
theorem card_joins_le (s : Sys C) (e : Ev C) :
    (univ.filter fun j => (s.view j).joins (s.project e j) = true).card ≤
      (if e.act = .forkReady then 1 else 0) + setsOne s e := by
  by_cases hne : (univ.filter fun j => (s.view j).joins (s.project e j) = true).Nonempty
  · obtain ⟨j, hj⟩ := hne
    have hone : (univ.filter fun j => (s.view j).joins (s.project e j) = true).card ≤ 1 := by
      rw [card_le_one]
      intro a ha b hb
      rcases joins_project (mem_filter.mp ha).2 with ⟨hact, i, hi, hk⟩ | ⟨pid, pr, hact, -⟩ <;>
        rcases joins_project (mem_filter.mp hb).2 with ⟨hact', i', hi', hk'⟩ | ⟨pid', pr', hact', -⟩ <;>
        rw [hact] at hact' <;> cases hact'
      · obtain rfl : i = i' := by simpa [hi] using hi'
        simpa [hk] using hk'
      · rfl
    rcases joins_project (mem_filter.mp hj).2 with ⟨hact, -⟩ | hset
    · rw [if_pos hact]; omega
    · rw [setsOne_of_sets hset]; omega
  · rw [not_nonempty_iff_eq_empty.mp hne]
    exact Nat.zero_le _

/-- **One section and the waiting line**, while `v` waits and no boost runs. -/
theorem card_waiting_step (hw : Wf s) (hq : ∀ p, (s.view p).Quantum) (hs : s.step e = some s')
    (hv : (s.proc v).state = .runnable) (hb : e.act ≠ .boostSlot)
    (hd : ∀ j, s.cpu e.cpu = .selected j → (s.proc j).priority = 0) :
    (waiting v s').card + (if e.act = .charge then 1 else 0) ≤
      (waiting v s).card + ((if e.act = .forkReady then 1 else 0) + setsOne s e) := by
  have heff : ∀ j, (s.view j).Effect (s.project e j) (s'.view j) := fun j =>
    View.effect_of_step ((trans_of_step hs).view hw j)
  have hstep : ∀ j, (s'.view j).pending = true → s.project e j ≠ .charge ∧
      ((s.view j).pending = true ∨ (s.view j).joins (s.project e j) = true) := fun j hj =>
    View.pending_step (hq j) (heff j) (fun h => hb (project_boost.mp h).1)
      (fun h => hd j (project_dispatch.mp h).2) hj
  by_cases hc : e.act = .charge
  · -- the charged process leaves the line
    have ht := trans_of_step hs
    rw [hc] at ht
    obtain ⟨i, hpc, hth⟩ : ∃ i, s.cpu e.cpu = .run i ∧ s.thread i = .trapped := by
      cases ht with
      | charge hpc hth _ => exact ⟨_, hpc, hth⟩
    have hproj : s.project e i = .charge := by simp [Sys.project, hc, hpc]
    have hi : i ∈ waiting v s := by
      refine mem_filter.mpr ⟨mem_erase.mpr ⟨?_, mem_univ i⟩, ?_⟩
      · rintro rfl
        rw [hw.running _ _ hpc] at hv; cases hv
      · exact View.pending_of_uncharged (hq i) (by simp [Sys.view, hth, Thread.uncharged])
    have hsub : waiting v s' ⊆ (waiting v s).erase i := by
      intro j hj
      obtain ⟨hjv, hjp⟩ := mem_filter.mp hj
      obtain ⟨hne, hor⟩ := hstep j hjp
      refine mem_erase.mpr ⟨fun h => hne (h ▸ hproj), mem_filter.mpr ⟨hjv, ?_⟩⟩
      rcases hor with h | h
      · exact h
      · rcases joins_project h with ⟨h, -⟩ | ⟨_, _, h, -⟩ <;> rw [hc] at h <;> cases h
    have hle := card_le_card hsub
    rw [card_erase_of_mem hi] at hle
    have hpos := card_pos.mpr ⟨i, hi⟩
    rw [if_pos hc]
    omega
  · have hsub : waiting v s' ⊆
        waiting v s ∪ univ.filter fun j => (s.view j).joins (s.project e j) = true := by
      intro j hj
      obtain ⟨hjv, hjp⟩ := mem_filter.mp hj
      rcases (hstep j hjp).2 with h | h
      · exact mem_union_left _ (mem_filter.mpr ⟨hjv, h⟩)
      · exact mem_union_right _ (mem_filter.mpr ⟨mem_univ j, h⟩)
    have hle := (card_le_card hsub).trans (card_union_le _ _)
    have hj := card_joins_le s e
    rw [if_neg hc]
    omega

end Line

/-! ## After a boost -/

/-- What holds of `v` after a boost, until it is dispatched. -/
structure Waits (v : Slot) (s : Sys 1) : Prop where
  wf : Wf s
  quantum : ∀ p, (s.view p).Quantum
  runnable : s.RunnableAt v 0
  behind : Behind s v 0

section OneCpu

variable {h₀ h : List (Sys 1 × Ev 1)} {s0 s s' : Sys 1} {e : Ev 1} {v : Slot}

theorem Waits.step (hI : Waits v s) (hd : ¬ DispatchOf s e v) (hset : ¬ SetsPriority s e v)
    (hs : s.step e = some s') : Waits v s' := by
  have hview := fun p => (trans_of_step hs).view hI.wf p
  refine ⟨(trans_of_step hs).wf hI.wf, fun p => (hI.quantum p).step (hview p), ?_,
    behind_step hI.behind hI.runnable hs⟩
  refine View.runnable_step (hI.quantum v) (View.effect_of_step (hview v)) hI.runnable.1
    hI.runnable.2 (fun h => hd (project_dispatch.mp h)) fun pid priority hp => ?_
  by_contra hh
  obtain ⟨hact, h0, h2⟩ := project_setpriority.mp hp
  exact hset ⟨pid, priority, hact, h0, h2, by simpa [Sys.view] using hh⟩

/-- While `v` waits only processes at priority 0 are dispatched. -/
theorem Waits.selected (hI : Waits v s) {c : Fin 1} {j : Slot} (hj : s.cpu c = .selected j) :
    (s.proc j).priority = 0 := by
  obtain rfl : c = 0 := Subsingleton.elim _ _
  obtain ⟨q, hrun, hle⟩ := hI.behind.2 j hj
  rw [scanPos_le_iff] at hle
  have hq : q = 0 := by
    rcases hle with h | ⟨h, -⟩
    · exact absurd h (Nat.not_lt_zero _)
    · exact h
  rw [hrun.2, hq]; rfl

/-- **The bound, from any state in which `v` waits at priority 0.** -/
theorem Waits.charges_le (hI : Waits v s0) (hp : Path Sys.step s0 h s)
    (hd : ∀ x ∈ h, ¬ DispatchOf x.1 x.2 v) (hset : ∀ x ∈ h, ¬ SetsPriority x.1 x.2 v)
    (hb : ∀ x ∈ h, x.2.act ≠ .boostSlot) :
    acts .charge h ≤ (waiting v s0).card + acts .forkReady h + total setsOne h := by
  have hpot := hp.potential (I := Waits v) (Φ := fun s => (waiting v s).card)
    (Q := fun s e => ¬ DispatchOf s e v ∧ ¬ SetsPriority s e v ∧ e.act ≠ .boostSlot)
    (f := fun _ e => if e.act = .charge then 1 else 0)
    (g := fun s e => (if e.act = .forkReady then 1 else 0) + setsOne s e)
    (fun x hx => ⟨hd x hx, hset x hx, hb x hx⟩) hI
    (fun s e s' hI hQ hs => hI.step hQ.1 hQ.2.1 hs)
    (fun s e s' hI hQ hs => card_waiting_step hI.wf hI.quantum hs hI.runnable.1 hQ.2.2
      fun j hj => hI.selected hj)
  have hgain := total_add (fun (_ : Sys 1) (e : Ev 1) => if e.act = .forkReady then 1 else 0) setsOne h
  unfold acts
  omega

/-! ### The end of the boost -/

/-- The state in which `priority_boost` returns. -/
theorem waits_of_boost (hr : Reach 1 h₀ s) (hs : s.step ⟨0, .boostSlot⟩ = some s0)
    (hret : s0.cpu 0 = .scan 0 0) (hv : (s0.proc v).state = .runnable) :
    Waits v s0 ∧ s0.mlfqTicks = 0 := by
  have hr0 : Reach 1 ((s, ⟨0, .boostSlot⟩) :: h₀) s0 := hr.snoc hs
  have hL := hr.boostLoop
  have ht : Trans s 0 .boostSlot s0 := trans_of_step hs
  cases ht with
  | @boostSlot i hpc _ =>
    have hlast : nextSlot i = none := by
      have hret : boostNext i = .scan 0 0 := by simpa using hret
      unfold boostNext at hret
      cases hn : nextSlot i with
      | none => rfl
      | some j => rw [hn] at hret; cases hret
    have hpr := hL.boosted (fun p => Reach.quantum hr p) hpc (last_of_nextSlot hlast v)
    exact ⟨⟨Reach.wf hr0, fun p => Reach.quantum hr0 p, ⟨hv, hpr⟩, behind_of_start hret⟩,
      hL.ticks (by rw [hpc]; rfl)⟩

/-- The other processes that exist. -/
def others (v : Slot) (s : Sys C) : Finset Slot :=
  (univ.erase v).filter fun j => (s.proc j).state ≠ .unused

theorem waiting_subset_others (v : Slot) (s : Sys C) : waiting v s ⊆ others v s := by
  intro j hj
  obtain ⟨hjv, hp⟩ := mem_filter.mp hj
  have hu : (s.proc j).state ≠ .unused ∧ _ := of_decide_eq_true hp
  exact mem_filter.mpr ⟨hjv, hu.1⟩

theorem card_others_lt (v : Slot) (s : Sys C) : (others v s).card < BOOST_INTERVAL := by
  have hle : (others v s).card ≤ (univ.erase v).card := card_filter_le _ _
  rw [card_erase_of_mem (mem_univ v), card_univ, Fintype.card_fin] at hle
  simp only [NPROC, BOOST_INTERVAL] at *
  omega

/-- With no `fork` and no `setprocpriority`, no boost comes before `v` is dispatched. -/
theorem Waits.no_boost (hI : Waits v s0) (hm : s0.mlfqTicks = 0) (hret : s0.cpu 0 = .scan 0 0)
    (hp : Path Sys.step s0 h s) (hd : ∀ x ∈ h, ¬ DispatchOf x.1 x.2 v) (hfork : acts .forkReady h = 0)
    (hset : total setsOne h = 0) :
    ((∀ x ∈ h, x.2.act ≠ .boostSlot) ∧ (s.cpu 0).boosting = false) ∧ s.mlfqTicks < BOOST_INTERVAL := by
  -- as long as no boost has come, fewer ticks were counted than there are processes
  have hlt : ∀ {h s}, Path Sys.step s0 h s → (∀ x ∈ h, ¬ DispatchOf x.1 x.2 v) →
      acts .forkReady h = 0 → total setsOne h = 0 → (∀ x ∈ h, x.2.act ≠ .boostSlot) →
      s.mlfqTicks < BOOST_INTERVAL := by
    intro h s hp hd hfork hset hb
    have hns : ∀ x ∈ h, ¬ SetsPriority x.1 x.2 v := fun x hx hsx => by
      have hle : setsOne x.1 x.2 ≤ total setsOne h := le_total_of_mem setsOne hx
      rw [setsOne_of_sets hsx, hset] at hle
      omega
    have hcur : s0.charged = 0 := by simp [Sys.charged, Sys.cur, hret]
    have h1 := hI.charges_le hp hd hns hb
    have h₂ := mlfqTicks_le_charges hI.wf hp
    have h3 := card_le_card (waiting_subset_others v s0)
    have h4 := card_others_lt v s0
    omega
  have hb : (∀ x ∈ h, x.2.act ≠ .boostSlot) ∧ (s.cpu 0).boosting = false := by
    revert hd hfork hset
    refine hp.inv_hist (I := fun h s => (∀ x ∈ h, ¬ DispatchOf x.1 x.2 v) → acts .forkReady h = 0 →
      total setsOne h = 0 → (∀ x ∈ h, x.2.act ≠ .boostSlot) ∧ (s.cpu 0).boosting = false)
      (fun _ _ _ => ⟨by simp, by rw [hret]; rfl⟩) ?_
    intro h s e s' hp ih hs hd hfork hset
    simp only [acts, total_cons, Nat.add_eq_zero_iff] at hfork hset
    have hd' : ∀ x ∈ h, ¬ DispatchOf x.1 x.2 v := fun x hx => hd x (List.mem_cons_of_mem _ hx)
    obtain ⟨hb, hpc⟩ := ih hd' hfork.2 hset.2
    have hm := hlt hp hd' hfork.2 hset.2 hb
    refine ⟨fun x hx => ?_, ?_⟩
    · rcases List.mem_cons.mp hx with rfl | hx
      · intro ha
        rw [boosting_of_boostSlot hs ha] at hpc; cases hpc
      · exact hb x hx
    · by_contra hne
      rcases boosting_of_step hs (by simpa using hne) with h | ⟨h, -⟩
      · rw [h] at hpc; cases hpc
      · omega
  exact ⟨hb, hlt hp hd hfork hset hb.1⟩

/-- **The starvation bound.**  On one CPU, let `v` be `RUNNABLE` when `priority_boost` returns.  As long
as `v` has not been dispatched and its priority has not been set, and up to the next boost, at most as
many ticks are charged as there were other processes, plus one for each successful `fork` and
`setprocpriority`.  Without these calls `mlfq_ticks` stays below `BOOST_INTERVAL` until `v` is
dispatched. -/
theorem starvation_bound (hr : Reach 1 h₀ s) (hs : s.step ⟨0, .boostSlot⟩ = some s0)
    (hret : s0.cpu 0 = .scan 0 0) (hv : (s0.proc v).state = .runnable) (hp : Path Sys.step s0 h s')
    (hd : ∀ x ∈ h, ¬ DispatchOf x.1 x.2 v) :
    ((∀ x ∈ h, ¬ SetsPriority x.1 x.2 v) → (∀ x ∈ h, x.2.act ≠ .boostSlot) →
      acts .charge h ≤ (others v s0).card + acts .forkReady h + total setsOne h) ∧
    (acts .forkReady h = 0 → total setsOne h = 0 → s'.mlfqTicks < BOOST_INTERVAL) := by
  obtain ⟨hI, hm⟩ := waits_of_boost hr hs hret hv
  refine ⟨fun hns hb => ?_, fun hfork hset => (hI.no_boost hm hret hp hd hfork hset).2⟩
  have hle := hI.charges_le hp hd hns hb
  have hsub := card_le_card (waiting_subset_others v s0)
  omega

/-- After its first boost the child of `initproc` waits for one tick of its parent. -/
theorem starvation_bound_child : ∃ (h₀ h : List (Sys 1 × Ev 1)) (s s0 s' : Sys 1), Reach 1 h₀ s ∧
    s.step ⟨0, .boostSlot⟩ = some s0 ∧ s0.cpu 0 = .scan 0 0 ∧ Path Sys.step s0 h s' ∧
    acts .charge h = 1 ∧ acts .charge h ≤ (others 1 s0).card + acts .forkReady h + total setsOne h ∧
    s'.mlfqTicks < BOOST_INTERVAL := by
  obtain ⟨h₀, s, hr, hnext⟩ := exists_reach_of_replay (C := 1)
    (fun _ s => ((s.step ⟨0, .boostSlot⟩).any fun s0 => decide (s0.cpu 0 = .scan 0 0) &&
      decide ((s0.proc 1).state = .runnable) &&
      ((replay Sys.step [] s0 [⟨0, .scanSlot⟩, ⟨0, .dispatch⟩, ⟨0, .resume⟩, ⟨0, .timer⟩, ⟨0, .charge⟩]).any
        fun x => decide ((∀ y ∈ x.1, ¬ (y.2.act = .dispatch ∧ y.1.cpu y.2.cpu = .selected 1)) ∧
          (∀ y ∈ x.1, y.2.act ≠ .boostSlot) ∧ acts .charge x.1 = 1 ∧ acts .forkReady x.1 = 0 ∧
          total setsOne x.1 = 0))) = true)
    (forkAndTick ++ raiseToBoost ++ ⟨0, .recordBoost⟩ :: List.replicate 63 ⟨0, .boostSlot⟩)
    (by decide +kernel)
  obtain ⟨s0, hs, hall⟩ := (Option.any_eq_true _ _).mp hnext
  obtain ⟨⟨hret, hv⟩, hrun⟩ : (s0.cpu 0 = .scan 0 0 ∧ (s0.proc 1).state = .runnable) ∧ _ := by
    simpa only [Bool.and_eq_true, decide_eq_true_eq] using hall
  obtain ⟨h, s', hp, hd, hb, hc, hf, hset⟩ := exists_path_of_replay
    (fun (h : List (Sys 1 × Ev 1)) (_ : Sys 1) =>
      (∀ y ∈ h, ¬ (y.2.act = .dispatch ∧ y.1.cpu y.2.cpu = .selected 1)) ∧
      (∀ y ∈ h, y.2.act ≠ .boostSlot) ∧ acts .charge h = 1 ∧ acts .forkReady h = 0 ∧
      total setsOne h = 0) _ hrun
  have hns : ∀ x ∈ h, ¬ SetsPriority x.1 x.2 1 := fun x hx hsx => by
    have hle : setsOne x.1 x.2 ≤ total setsOne h := le_total_of_mem setsOne hx
    rw [setsOne_of_sets hsx, hset] at hle
    omega
  obtain ⟨hbound, hlt⟩ := starvation_bound hr hs hret hv hp hd
  exact ⟨h₀, h, s, s0, s', hr, hs, hret, hp, hc, hbound hns hb, hlt hf hset⟩

end OneCpu

end Xv6Mlfq
