import Xv6Mlfq.Quantum

/-!
# Xv6Mlfq.Effect — the sections that write the scheduling fields

`View.Effect` inverts `View.step` by what happens to `priority`, `ticks_used` and the statistics: most
sections leave all of them alone (`quiet`), the others are listed with what they write.
-/

namespace Xv6Mlfq

open CInt

/-- Switched in and not charged since: the thread may still be charged a tick. -/
def Thread.uncharged : Thread → Bool
  | .resuming _ | .normal | .trapped => true
  | _ => false

/-- The sections that start a new quantum of a process: its allocation, its `sleep`, a
`priority_boost`, a `setprocpriority` of it, and a `yield` that finds its quantum used up. -/
def View.startsQuantum (v : View) : LAct → Bool
  | .alloc r _ => r = .ok
  | .sleep _ => true
  | .boost => v.proc.state ≠ .unused
  | .setpriority pid _ => v.proc.hasPid pid
  | .yield => getTimeSlice v.proc.priority ≤ v.proc.ticksUsed
  | _ => false

/-- The sections that leave the scheduling fields of the slot alone. -/
inductive View.Quiet (v : View) : LAct → View → Prop
  /-- The thread stays where it is; the process may be woken. -/
  | stay {a : LAct} {p' : Proc} : v.proc.SameMlfq p' →
      (p'.state = v.proc.state ∨ v.proc.state = .sleeping ∧ p'.state = .runnable) →
      v.startsQuantum a = false → a ≠ .charge → v.Quiet a ⟨p', v.thread⟩
  /-- The thread goes on, and may still be charged. -/
  | go {a : LAct} {p' : Proc} {t : Thread} : v.proc.SameMlfq p' → p'.state = v.proc.state →
      v.thread.uncharged = true → t.uncharged = true →
      v.startsQuantum a = false → a ≠ .charge → v.Quiet a ⟨p', t⟩
  | count : v.thread = .charged → v.Quiet .count { v with thread := .counted }
  /-- A `yield` before the time slice is used up. -/
  | keep : v.thread = .counted → v.proc.ticksUsed < getTimeSlice v.proc.priority →
      v.Quiet .yield ⟨{ v.proc with state := .runnable }, .off .yield⟩
  | exit {status : ℤ} : v.thread = .normal → v.Quiet (.exit status) ⟨v.proc.exit status, .off .exit⟩
  | ready : v.proc.state = .used →
      v.Quiet .ready { v with proc := { v.proc with state := .runnable } }

/-- What a section does to the scheduling fields of a slot. -/
inductive View.Effect (v : View) : LAct → View → Prop
  | quiet {a : LAct} {v' : View} : v.Quiet a v' → v.Effect a v'
  | boost : v.proc.state ≠ .unused → v.Effect .boost
      { v with proc := { v.proc with
        numBoosted := if v.proc.priority > 0 then inc v.proc.numBoosted else v.proc.numBoosted
        priority := 0, ticksUsed := 0 } }
  | dispatch : v.proc.state = .runnable → v.Effect .dispatch ⟨v.proc.dispatch, v.thread.switchIn⟩
  | charge : v.thread = .trapped → v.Effect .charge ⟨v.proc.mlfqCheckTimer, .charged⟩
  | demote : v.thread = .counted → getTimeSlice v.proc.priority ≤ v.proc.ticksUsed →
      v.proc.priority < 2 → v.Effect .yield
      ⟨{ v.proc with
          priority := inc v.proc.priority, numDemoted := inc v.proc.numDemoted, ticksUsed := 0
          state := .runnable }, .off .yield⟩
  | renew : v.thread = .counted → getTimeSlice v.proc.priority ≤ v.proc.ticksUsed →
      2 ≤ v.proc.priority → v.Effect .yield
      ⟨{ v.proc with ticksUsed := 0, state := .runnable }, .off .yield⟩
  | sleep {chan : Chan} : v.thread = .normal →
      v.Effect (.sleep chan) ⟨v.proc.sleep chan, .off .sleep⟩
  | alloc {r : Proc.AllocResult} {pid : ℤ} : v.proc.state = .unused → v.Effect (.alloc r pid)
      ⟨v.proc.alloc r pid, if r = .ok then .off .forkret else v.thread⟩
  | free : v.proc.state = .zombie → v.Effect .free { v with proc := v.proc.freeproc }
  | setpriority {pid priority : ℤ} : v.proc.hasPid pid = true → 0 ≤ priority → priority ≤ 2 →
      v.Effect (.setpriority pid priority)
      { v with proc := { v.proc with priority := priority, ticksUsed := 0 } }

namespace View.Quiet

variable {v v' : View} {a : LAct}

theorem same (hq : v.Quiet a v') : v.proc.SameMlfq v'.proc := by
  cases hq with
  | stay hs _ _ _ | go hs _ _ _ _ _ => exact hs
  | _ => exact ⟨rfl, rfl, rfl, rfl, rfl, rfl⟩

theorem unused_iff (hv : v.Quantum) (hq : v.Quiet a v') :
    v'.proc.state = .unused ↔ v.proc.state = .unused := by
  cases hq with
  | stay _ hst _ _ => rcases hst with hst | ⟨hst, hst'⟩ <;> simp [*]
  | go _ hst _ _ _ _ => simp [hst]
  | count _ => exact .rfl
  | keep ht _ | exit ht => simp [hv.running (by simp [ht, Thread.isOff])]
  | ready hu => simp [hu]

theorem uncharged (hq : v.Quiet a v') (h : v'.thread.uncharged = true) :
    v.thread.uncharged = true := by
  cases hq with
  | stay _ _ _ _ | ready _ => exact h
  | go _ _ hun _ _ _ => exact hun
  | _ => cases h

theorem starts (hq : v.Quiet a v') : v.startsQuantum a = false := by
  cases hq with
  | stay _ _ h _ | go _ _ _ _ h _ => exact h
  | keep _ hlt => simpa [startsQuantum] using hlt
  | _ => rfl

theorem ne_charge (hq : v.Quiet a v') : a ≠ .charge := by
  cases hq with
  | stay _ _ _ h | go _ _ _ _ _ h => exact h
  | _ => simp

end View.Quiet

/-- **Inversion of `View.step`** by effect. -/
theorem View.effect_of_step {v v' : View} {a : LAct} (h : v.step a = some v') : v.Effect a v' := by
  cases a <;> simp only [View.step, Option.some.injEq, Option.ite_none_right_eq_some] at h
  case none => exact h ▸ .quiet (.stay v.proc.same_refl (.inl rfl) rfl (by simp))
  case boost =>
    subst h
    by_cases hu : v.proc.state = .unused
    · rw [Proc.priorityBoost, if_neg (not_not.mpr hu)]
      exact .quiet (.stay v.proc.same_refl (.inl rfl) (by simp [startsQuantum, hu]) (by simp))
    · rw [Proc.priorityBoost, if_pos hu]
      exact .boost hu
  case dispatch =>
    obtain ⟨hst, rfl⟩ := h
    exact .dispatch hst
  case resume =>
    split at h <;> simp only [Option.some.injEq, reduceCtorEq] at h
    all_goals
      next ht =>
      subst h
      have hun : v.thread.uncharged = true := by rw [ht]; rfl
      exact .quiet (.go ⟨rfl, rfl, rfl, rfl, rfl, rfl⟩ rfl hun rfl rfl (by simp))
  case timer | trapExit =>
    obtain ⟨ht, rfl⟩ := h
    have hun : v.thread.uncharged = true := by rw [ht]; rfl
    exact .quiet (.go v.proc.same_refl rfl hun rfl rfl (by simp))
  case charge =>
    obtain ⟨ht, rfl⟩ := h
    exact .charge ht
  case count =>
    obtain ⟨ht, rfl⟩ := h
    exact .quiet (.count ht)
  case yield =>
    obtain ⟨ht, rfl⟩ := h
    unfold Proc.yield
    rcases v.proc.demote_cases with ⟨hlt, hd⟩ | ⟨hge, hp, hd⟩ | ⟨hge, hp, hd⟩ <;> rw [hd]
    · exact .quiet (.keep ht hlt)
    · exact .demote ht hge hp
    · exact .renew ht hge hp
  case setkilled | parent =>
    subst h
    exact .quiet (.stay ⟨rfl, rfl, rfl, rfl, rfl, rfl⟩ (.inl rfl) rfl (by simp))
  case sleep chan =>
    obtain ⟨ht, rfl⟩ := h
    exact .sleep ht
  case exit status =>
    obtain ⟨ht, rfl⟩ := h
    exact .quiet (.exit ht)
  case alloc r pid =>
    obtain ⟨hu, rfl⟩ := h
    exact .alloc hu
  case ready =>
    obtain ⟨hu, rfl⟩ := h
    exact .quiet (.ready hu)
  case free =>
    obtain ⟨hz, rfl⟩ := h
    exact .free hz
  case wakeup chan =>
    subst h
    exact .quiet (.stay (v.proc.same_wakeup chan) (v.proc.wakeup_state chan) rfl (by simp))
  case kill pid =>
    subst h
    exact .quiet (.stay (v.proc.same_kill pid) (v.proc.kill_state pid) rfl (by simp))
  case setpriority pid priority =>
    obtain ⟨⟨h0, h2⟩, rfl⟩ := h
    by_cases hh : v.proc.hasPid pid = true
    · rw [Proc.setprocpriority, if_pos hh]
      exact .setpriority hh h0 h2
    · rw [Proc.setprocpriority, if_neg hh]
      exact .quiet (.stay v.proc.same_refl (.inl rfl) (by simpa [startsQuantum] using hh) (by simp))

end Xv6Mlfq
