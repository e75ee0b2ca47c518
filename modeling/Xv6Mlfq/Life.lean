import Xv6Mlfq.Wf

/-!
# Xv6Mlfq.Life — the process layer seen from one slot

What a slot goes through depends on the rest of the system only through the order of the sections
that touch it.  `View` is a slot with its thread, `View.step` its own transition system, and
`Reach.view` projects every run of the layer to a run of the slot.  The invariants of a single
process (its quantum, its demotions, its statistics) are proved over `View.step`.
-/

namespace Xv6Mlfq

open CInt Function Lts

/-- A slot of the table and the thread of its process. -/
structure View where
  proc : Proc
  thread : Thread
  deriving DecidableEq

/-- What a section means to a slot. -/
inductive LAct
  /-- The section does not touch the slot. -/
  | none
  | boost | dispatch | resume | timer | charge | count | yield | trapExit | setkilled
  | sleep (chan : Chan) | exit (status : ℤ) | alloc (r : Proc.AllocResult) (pid : ℤ) | ready | free
  | wakeup (chan : Chan) | kill (pid : ℤ) | setpriority (pid priority : ℤ) | parent (o : Option Slot)
  deriving DecidableEq

/-- One section, on one slot. -/
def View.step (v : View) : LAct → Option View
  | .none => some v
  | .boost => some { v with proc := v.proc.priorityBoost }
  | .dispatch =>
    if v.proc.state = .runnable then some ⟨v.proc.dispatch, v.thread.switchIn⟩ else .none
  | .resume =>
    match v.thread with
    | .resuming .sleep => some ⟨v.proc.tidy, .normal⟩
    | .resuming .yield | .resuming .forkret => some { v with thread := .normal }
    | _ => .none
  | .timer => if v.thread = .normal then some { v with thread := .trapped } else .none
  | .charge => if v.thread = .trapped then some ⟨v.proc.mlfqCheckTimer, .charged⟩ else .none
  | .count => if v.thread = .charged then some { v with thread := .counted } else .none
  | .yield => if v.thread = .counted then some ⟨v.proc.yield, .off .yield⟩ else .none
  | .trapExit => if v.thread = .trapped then some { v with thread := .normal } else .none
  | .setkilled => some { v with proc := v.proc.setkilled }
  | .sleep chan => if v.thread = .normal then some ⟨v.proc.sleep chan, .off .sleep⟩ else .none
  | .exit status => if v.thread = .normal then some ⟨v.proc.exit status, .off .exit⟩ else .none
  | .alloc r pid =>
    if v.proc.state = .unused then
      some ⟨v.proc.alloc r pid, if r = .ok then .off .forkret else v.thread⟩
    else .none
  | .ready =>
    if v.proc.state = .used then some { v with proc := { v.proc with state := .runnable } } else .none
  | .free => if v.proc.state = .zombie then some { v with proc := v.proc.freeproc } else .none
  | .wakeup chan => some { v with proc := v.proc.wakeup chan }
  | .kill pid => some { v with proc := v.proc.kill pid }
  | .setpriority pid priority =>
    if 0 ≤ priority ∧ priority ≤ 2 then some { v with proc := v.proc.setprocpriority pid priority }
    else .none
  | .parent o => some { v with proc := { v.proc with parent := o } }

variable {C : ℕ} {h : List (Sys C × Ev C)}

/-- Slot `p` of the layer. -/
def Sys.view (s : Sys C) (p : Slot) : View := ⟨s.proc p, s.thread p⟩

/-- The process CPU `c` runs. -/
def Sys.current (s : Sys C) (c : Fin C) : Option Slot :=
  match s.cpu c with
  | .run i => some i
  | _ => none

/-- What the section `e` means to slot `p`. -/
def Sys.project (s : Sys C) (e : Ev C) (p : Slot) : LAct :=
  match e.act with
  | .boostTest | .recordBoost | .scanSlot => .none
  | .boostSlot => if s.cpu e.cpu = .boost p then .boost else .none
  | .dispatch => if s.cpu e.cpu = .selected p then .dispatch else .none
  | .resume => if s.cpu e.cpu = .run p then .resume else .none
  | .timer => if s.cpu e.cpu = .run p then .timer else .none
  | .charge => if s.cpu e.cpu = .run p then .charge else .none
  | .count => if s.cpu e.cpu = .run p then .count else .none
  | .yield => if s.cpu e.cpu = .run p then .yield else .none
  | .trapExit => if s.cpu e.cpu = .run p then .trapExit else .none
  | .setkilled => if s.cpu e.cpu = .run p then .setkilled else .none
  | .sleep chan => if s.cpu e.cpu = .run p then .sleep chan else .none
  | .exit status => if s.cpu e.cpu = .run p then .exit status else .none
  | .alloc j r => if p = j then .alloc r s.nextpid else .none
  | .forkParent =>
    match s.current e.cpu with
    | some i => if s.forking i = .allocated p then .parent (some i) else .none
    | none => .none
  | .forkReady =>
    match s.current e.cpu with
    | some i => if s.forking i = .parented p then .ready else .none
    | none => .none
  | .wakeup j chan => if p = j then .wakeup chan else .none
  | .kill j pid => if p = j then .kill pid else .none
  | .setprocpriority j pid priority =>
    if p = j ∧ 0 ≤ priority ∧ priority ≤ 2 then .setpriority pid priority else .none
  | .reparent j =>
    if p = j ∧ (s.proc j).parent = s.current e.cpu then .parent (some initproc) else .none
  | .waitFree j =>
    if p = j ∧ (s.proc j).parent = s.current e.cpu ∧ (s.proc j).state = .zombie then .free
    else .none

theorem Sys.current_of_run {s : Sys C} {c : Fin C} {i : Slot} (h : s.cpu c = .run i) :
    s.current c = some i := by simp [Sys.current, h]

section Project

variable {s s' : Sys C} {e : Ev C}

/-- **A section of the layer is a section of each slot.** -/
theorem Trans.view (hw : Wf s) (h : Trans s e.cpu e.act s') (p : Slot) :
    (s.view p).step (s.project e p) = some (s'.view p) := by
  obtain ⟨c, a⟩ := e
  unfold Sys.project View.step Sys.view
  dsimp only at h ⊢
  cases h with
  | boostFire _ _ | boostPass _ _ | recordBoost _ | scanHit _ _ _ _ | scanMiss _ _ _ => rfl
  | @boostSlot i hpc _ | @setkilled i hpc _ _ =>
    rcases eq_or_ne p i with rfl | hp
    · simp [hpc]
    · simp [hpc, hp, hp.symm]
  | @dispatch i hpc =>
    rcases eq_or_ne p i with rfl | hp
    · simp [hpc, (hw.selected c p hpc).2]
    · simp [hpc, hp, hp.symm]
  | @resume i r hpc ht hr =>
    rcases eq_or_ne p i with rfl | hp
    · rcases hr with rfl | rfl <;> simp [hpc, ht]
    · simp [hpc, hp, hp.symm]
  | @resumeSleep i hpc ht | @timerRun i hpc ht | @charge i hpc ht _ | @count i hpc ht | @yield i hpc ht _
  | @trapExit i hpc ht _ _ =>
    rcases eq_or_ne p i with rfl | hp
    · simp [hpc, ht]
    · simp [hpc, hp, hp.symm]
  | timerIdle hi =>
    have hne : s.cpu c ≠ .run p := fun h => by simp [h, Pc.idle] at hi
    simp [hne]
  | @sleep i chan hpc hi _ | @exit i status hpc hi _ _ =>
    rcases eq_or_ne p i with rfl | hp
    · simp [hpc, hi.1]
    · simp [hpc, hp, hp.symm]
  | @allocOk i j hpc _ _ hu =>
    rcases eq_or_ne p j with rfl | hp
    · simp [hu]
    · simp [hp]
  | @allocFail i j r hpc _ _ hu hr =>
    rcases eq_or_ne p j with rfl | hp
    · simp [hu, hr]
    · simp [hp]
  | @forkParent i np hpc ht hk =>
    rcases eq_or_ne p np with rfl | hp
    · simp [Sys.current_of_run hpc, hk]
    · simp [Sys.current_of_run hpc, hk, hp, hp.symm]
  | @forkReady i np hpc ht hk _ =>
    have hu := hw.child i np (by simp [hk, ForkPc.child])
    rcases eq_or_ne p np with rfl | hp
    · simp [Sys.current_of_run hpc, hk, hu]
    · simp [Sys.current_of_run hpc, hk, hp, hp.symm]
  | @wakeup j chan _ _ | @kill _ j pid _ _ _ =>
    rcases eq_or_ne p j with rfl | hp
    · simp
    · simp [hp]
  | @setprocpriority _ j pid priority _ _ _ h0 h2 =>
    rcases eq_or_ne p j with rfl | hp
    · simp [h0, h2]
    · simp [hp]
  | @setprocpriorityBad _ j pid priority _ _ _ hb =>
    have hno : ¬ (p = j ∧ 0 ≤ priority ∧ priority ≤ 2) := by omega
    simp [hno]
  | @reparent i j hpc _ hpar =>
    rcases eq_or_ne p j with rfl | hp
    · simp [Sys.current_of_run hpc, hpar]
    · simp [hp]
  | @reparentSkip i j hpc _ hno | @waitSkip i j hpc _ _ hno => simp [Sys.current_of_run hpc, hno]
  | @waitFree i j hpc _ _ hpar hz =>
    rcases eq_or_ne p j with rfl | hp
    · simp [Sys.current_of_run hpc, hpar, hz]
    · simp [hp]

/-- The history of slot `p`. -/
def slotHist (p : Slot) (h : List (Sys C × Ev C)) : List (View × LAct) :=
  h.map fun x => (x.1.view p, x.1.project x.2 p)

/-- **A run of the layer is, slot by slot, a run of `View.step`.** -/
theorem path_view {s0 : Sys C} (hw : Wf s0) (hp : Path Sys.step s0 h s)
    (p : Slot) : Path View.step (s0.view p) (slotHist p h) (s.view p) :=
  hp.map (f := fun s => s.view p) (g := fun s e => s.project e p) hw
    (fun _ _ _ hw hs => (trans_of_step hs).wf hw) fun _ _ _ hw hs => (trans_of_step hs).view hw p

theorem Reach.view (hr : Reach C h s) (p : Slot) :
    Path View.step ((boot C).view p) (slotHist p h) (s.view p) :=
  path_view (wf_boot C) hr p

end Project

end Xv6Mlfq
