import Xv6Mlfq.Wf

/-!
# Xv6Mlfq.Clock — the timer path on one CPU

On one CPU a tick goes through `clockintr`, the charge of `mlfq_check_timer` and the increment of
`mlfq_ticks` before the next one comes.  So `mlfq_ticks` is at most the number of charges, and the
charges at most the ticks, since a moment at which no tick was under way (`mlfqTicks_le_charges`,
`charges_le_timers`).
-/

namespace Xv6Mlfq

open CInt Lts Function

/-- The thread that runs on the CPU. -/
def Sys.cur (s : Sys 1) : Option Thread :=
  match s.cpu 0 with
  | .run i => some (s.thread i)
  | _ => none

/-- A tick has been taken and not yet charged. -/
def Sys.trapped (s : Sys 1) : ℕ := if s.cur = some .trapped then 1 else 0

/-- A tick has been charged and not yet counted. -/
def Sys.charged (s : Sys 1) : ℕ := if s.cur = some .charged then 1 else 0

section Step

variable {s s' s0 : Sys 1} {e : Ev 1} {h : List (Sys 1 × Ev 1)}

theorem Sys.cur_of_run {i : Slot} (h : s.cpu 0 = .run i) : s.cur = some (s.thread i) := by
  simp [Sys.cur, h]

/-- A step on the timer path, or none that leads into it. -/
theorem clock_step (hw : Wf s) (hs : s.step e = some s') :
    (e.act = .timer ∧ s'.mlfqTicks = s.mlfqTicks ∧
      (s'.cur = s.cur ∨ s.cur = some .normal ∧ s'.cur = some .trapped)) ∨
    (e.act = .charge ∧ s'.mlfqTicks = s.mlfqTicks ∧
      s.cur = some .trapped ∧ s'.cur = some .charged) ∨
    (e.act = .count ∧ s'.mlfqTicks = incU64 s.mlfqTicks ∧
      s.cur = some .charged ∧ s'.cur = some .counted) ∨
    (e.act ≠ .timer ∧ e.act ≠ .charge ∧ e.act ≠ .count ∧ s'.mlfqTicks ≤ s.mlfqTicks ∧
      (s'.cur = s.cur ∨ s'.cur ≠ some .trapped ∧ s'.cur ≠ some .charged)) := by
  obtain ⟨c, a⟩ := e
  obtain rfl : c = 0 := Subsingleton.elim _ _
  have ht : Trans s 0 a s' := trans_of_step hs
  cases ht with
  | timerRun hpc hth =>
    exact .inl ⟨rfl, rfl, .inr ⟨by rw [Sys.cur_of_run hpc, hth], by simp [Sys.cur, hpc]⟩⟩
  | timerIdle _ => exact .inl ⟨rfl, rfl, .inl rfl⟩
  | charge hpc hth _ =>
    exact .inr (.inl ⟨rfl, rfl, by rw [Sys.cur_of_run hpc, hth], by simp [Sys.cur, hpc]⟩)
  | count hpc hth =>
    exact .inr (.inr (.inl ⟨rfl, rfl, by rw [Sys.cur_of_run hpc, hth], by simp [Sys.cur, hpc]⟩))
  | @dispatch i hpc =>
    have hoff : (s.thread i).isOff = true := (hw.off i).mpr (by simp [(hw.selected 0 i hpc).2])
    refine .inr (.inr (.inr ⟨by simp, by simp, by simp, le_rfl, .inr ?_⟩))
    cases hth : s.thread i <;> rw [hth] at hoff <;> cases hoff
    simp [Sys.cur, Thread.switchIn]
  | @scanMiss q i _ _ _ =>
    have hidle := scanNext_idle q i
    refine .inr (.inr (.inr ⟨by simp, by simp, by simp, le_rfl, .inr ?_⟩))
    cases hn : scanNext q i <;> rw [hn] at hidle <;> simp_all [Sys.cur, Pc.idle]
  | @boostSlot i _ _ =>
    have hidle := boostNext_idle i
    refine .inr (.inr (.inr ⟨by simp, by simp, by simp, le_rfl, .inr ?_⟩))
    cases hn : boostNext i <;> rw [hn] at hidle <;> simp_all [Sys.cur, Pc.idle]
  | @allocOk i j hpc _ _ _ =>
    refine .inr (.inr (.inr ⟨by simp, by simp, by simp, le_rfl, ?_⟩))
    rcases eq_or_ne i j with rfl | hne
    · exact .inr (by simp [Sys.cur, hpc])
    · exact .inl (by simp [Sys.cur, hpc, hne])
  | boostFire _ _ => exact .inr (.inr (.inr ⟨by simp, by simp, by simp, by simp, .inr (by simp [Sys.cur])⟩))
  | boostPass _ _ | recordBoost _ | scanHit _ _ _ _ | yield _ _ _ | sleep _ _ _ | exit _ _ _ _ =>
    exact .inr (.inr (.inr ⟨by simp, by simp, by simp, le_rfl, .inr (by simp [Sys.cur])⟩))
  | resumeSleep hpc _ | resume hpc _ _ | trapExit hpc _ _ _ =>
    exact .inr (.inr (.inr ⟨by simp, by simp, by simp, le_rfl, .inr (by simp [Sys.cur, hpc])⟩))
  | _ => exact .inr (.inr (.inr ⟨by simp, by simp, by simp, le_rfl, .inl rfl⟩))

/-- Ticks on the way to `mlfq_ticks`, from their charge on. -/
theorem charged_step (hw : Wf s) (hs : s.step e = some s') :
    s'.mlfqTicks + s'.charged ≤ s.mlfqTicks + s.charged + if e.act = .charge then 1 else 0 := by
  unfold Sys.charged
  rcases clock_step hw hs with ⟨-, hm, hcur⟩ | ⟨ha, hm, hc, hc'⟩ | ⟨-, hm, hc, hc'⟩ |
    ⟨-, -, -, hm, hcur⟩
  · rcases hcur with h | ⟨h, h'⟩
    · rw [hm, h]; omega
    · rw [hm, h', if_neg (by simp)]; omega
  · rw [hm, hc, hc', if_pos ha]; simp
  · have hle : incU64 s.mlfqTicks ≤ s.mlfqTicks + 1 := Nat.mod_le _ _
    rw [hm, hc, hc', if_neg (by simp), if_pos rfl]
    omega
  · rcases hcur with h | ⟨-, h⟩
    · rw [h]; omega
    · rw [if_neg h]; omega

/-- Ticks on the way to their charge. -/
theorem trapped_step (hw : Wf s) (hs : s.step e = some s') :
    s'.trapped + (if e.act = .charge then 1 else 0) ≤ s.trapped + if e.act = .timer then 1 else 0 := by
  unfold Sys.trapped
  rcases clock_step hw hs with ⟨ha, -, hcur⟩ | ⟨ha, -, hc, hc'⟩ | ⟨ha, -, hc, hc'⟩ |
    ⟨ht, hch, -, -, hcur⟩
  · rw [ha]
    rcases hcur with h | ⟨-, h⟩ <;> rw [h] <;> simp
  · rw [ha, hc, hc']; simp
  · rw [ha, hc, hc']; simp
  · rw [if_neg ht, if_neg hch]
    rcases hcur with h | ⟨h, -⟩
    · rw [h]
    · rw [if_neg h]; omega

/-- **`mlfq_ticks` and the charges** since a moment with nothing under way. -/
theorem mlfqTicks_le_charges (hw : Wf s0) (hp : Path Sys.step s0 h s) :
    s.mlfqTicks + s.charged ≤ s0.mlfqTicks + s0.charged + acts .charge h := by
  have hinv : Wf s ∧ s.mlfqTicks + s.charged ≤ s0.mlfqTicks + s0.charged + acts .charge h := by
    refine hp.inv_hist (I := fun h s => Wf s ∧
      s.mlfqTicks + s.charged ≤ s0.mlfqTicks + s0.charged + acts .charge h) ⟨hw, by simp [acts]⟩ ?_
    rintro h s e s' - ⟨hw, hle⟩ hs
    have hstep := charged_step hw hs
    simp only [acts, total_cons] at hle ⊢
    exact ⟨(trans_of_step hs).wf hw, by omega⟩
  exact hinv.2

/-- **The charges and the ticks.** -/
theorem charges_le_timers (hw : Wf s0) (hp : Path Sys.step s0 h s) :
    s.trapped + acts .charge h ≤ s0.trapped + acts .timer h := by
  unfold acts
  exact (hp.potential (I := Wf) (Q := fun _ _ => True) (Φ := Sys.trapped) (fun _ _ => trivial) hw
    (fun _ _ _ hw _ hs => (trans_of_step hs).wf hw) fun _ _ _ hw _ hs => trapped_step hw hs).2

end Step

end Xv6Mlfq
