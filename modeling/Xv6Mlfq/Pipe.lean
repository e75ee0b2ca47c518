import Xv6Mlfq.Lib.Path
import Xv6Mlfq.Lib.Ring
import Xv6Mlfq.Lib.CInt

/-!
# Xv6Mlfq.Pipe — the bytes of a pipe

`pipewrite`, `piperead` and `pipeclose` of `pipe.c`, by any number of callers of one pipe.  A step is one iteration of a loop
under `pi->lock`, so the steps of different callers interleave where the code releases the lock: before a call, in `sleep`,
after the call.  A sleeper may go on whenever the lock is free (the loops test again).  What the environment decides (whether
the caller is killed, what `copyin` and `copyout` return) is the choice of a step.

`pipe_in_order`: the bytes taken out are the first of the bytes put in, in order, and the ones between are in the buffer.
-/

namespace Xv6Mlfq.Pipes

open Function CInt

/-! ## The code -/

/-- `PIPESIZE` -/
def PIPESIZE : ℕ := 512

instance : NeZero PIPESIZE := ⟨by decide⟩

/-- `struct pipe`, without its lock. -/
structure Pipe where
  data : Fin PIPESIZE → UInt8
  nread : ℕ
  nwrite : ℕ
  readopen : Bool
  writeopen : Bool

/-- A pipe as `pipealloc` makes it; the page comes with any contents. -/
def Pipe.alloc (data : Fin PIPESIZE → UInt8) : Pipe := ⟨data, 0, 0, true, true⟩

/-- `nwrite - nread`, on `uint`. -/
def Pipe.count (p : Pipe) : ℕ := (p.nwrite + (2 ^ 32 - p.nread)) % 2 ^ 32

/-- Where a caller stands. -/
inductive Caller
  | out
  /- `pipewrite`, with `i` bytes written: waiting for the lock, at the top of its loop -/
  | writeWait (n : ℤ) (i : ℕ) | writing (n : ℤ) (i : ℕ)
  /- `piperead`: waiting for the lock, at the top of its first loop, of its second loop with `i` bytes read -/
  | readWait (n : ℤ) | testing (n : ℤ) | copying (n : ℤ) (i : ℕ)
  /- about to return -/
  | leaving (v : ℤ)
  deriving DecidableEq, Repr

/-- What the environment decides: `killed(pr)`, and what `copyin` fetches or whether `copyout` succeeds. -/
structure Choice where
  killed : Bool
  copy : Option UInt8
  deriving DecidableEq, Repr

/-- What a caller that holds the lock does next. -/
inductive Act
  | put (ch : UInt8) | take (ok : Bool) | sleep | copy | ret (v : ℤ)
  deriving DecidableEq, Repr

/-- One iteration of a loop. -/
def act (p : Pipe) (c : Choice) : Caller → Option Act
  | .writing n i =>
    if (i : ℤ) < n then
      if p.readopen = false ∨ c.killed = true then some (.ret (-1))
      else if p.nwrite = (p.nread + PIPESIZE) % 2 ^ 32 then some .sleep
      else match c.copy with
        | some ch => some (.put ch)
        | none => some (.ret i)
    else some (.ret i)
  | .testing _ =>
    if p.nread = p.nwrite ∧ p.writeopen = true then
      if c.killed = true then some (.ret (-1)) else some .sleep
    else some .copy
  | .copying n i =>
    if (i : ℤ) < n then
      if p.nread = p.nwrite then some (.ret i) else some (.take c.copy.isSome)
    else some (.ret i)
  | .leaving v => some (.ret v)
  | _ => none

/-- `pi->data[pi->nwrite++ % PIPESIZE] = ch` -/
def Pipe.put (p : Pipe) (ch : UInt8) : Pipe :=
  { p with data := update p.data (Fin.ofNat PIPESIZE p.nwrite) ch, nwrite := incU32 p.nwrite }

/-- `pi->data[pi->nread++ % PIPESIZE]`: the byte. -/
def Pipe.first (p : Pipe) : UInt8 := p.data (Fin.ofNat PIPESIZE p.nread)

/-- `pi->data[pi->nread++ % PIPESIZE]`: the counter. -/
def Pipe.take (p : Pipe) : Pipe := { p with nread := incU32 p.nread }

/-- Where an action leads the caller. -/
def Caller.next : Caller → Act → Caller
  | .writing n i, .put _ => .writing n (i + 1)
  | .writing n i, .sleep => .writeWait n i
  | .testing n, .sleep => .readWait n
  | .testing n, .copy => .copying n 0
  | .copying n i, .take ok => if ok then .copying n (i + 1) else .leaving i
  | _, _ => .out

/-- What an action does to the pipe. -/
def Pipe.apply (p : Pipe) : Act → Pipe
  | .put ch => p.put ch
  | .take _ => p.take
  | _ => p

/-- The caller keeps the lock. -/
def Act.keeps : Act → Bool
  | put _ | take _ | copy => true
  | sleep | ret _ => false

variable {T : Type} [DecidableEq T] {c : Choice} {k : Caller} {ch : UInt8} {q : List UInt8}
  {data : Fin PIPESIZE → UInt8}

/-- A pipe, who holds its lock, and its callers. -/
structure State (T : Type) where
  pipe : Pipe
  lock : Option T
  caller : T → Caller

inductive Event (T : Type)
  /- calls -/
  | write (t : T) (n : ℤ) | read (t : T) (n : ℤ)
  /- a caller acquires the lock, on entry or after `sleep` -/
  | acquire (t : T)
  | go (t : T) (c : Choice)
  /- `pipeclose` -/
  | close (writable : Bool)

/-- `pipeclose` -/
def Pipe.close (p : Pipe) (writable : Bool) : Pipe :=
  if writable then { p with writeopen := false } else { p with readopen := false }

/-- The end that is waited for at the lock. -/
def Caller.enter : Caller → Option Caller
  | .writeWait n i => some (.writing n i)
  | .readWait n => some (.testing n)
  | _ => none

/-- One step.  When both ends are closed the page has been freed. -/
def step (s : State T) (e : Event T) : Option (State T) :=
  if s.pipe.readopen = false ∧ s.pipe.writeopen = false then none
  else match e with
    | .write t n => if s.caller t = .out then some { s with caller := update s.caller t (.writeWait n 0) } else none
    | .read t n => if s.caller t = .out then some { s with caller := update s.caller t (.readWait n) } else none
    | .acquire t =>
      if s.lock = none then
        (s.caller t).enter.map fun c => { s with lock := some t, caller := update s.caller t c }
      else none
    | .go t c =>
      if s.lock = some t then
        (act s.pipe c (s.caller t)).map fun a =>
          { pipe := s.pipe.apply a
            lock := if a.keeps then s.lock else none
            caller := update s.caller t ((s.caller t).next a) }
      else none
    | .close writable => if s.lock = none then some { s with pipe := s.pipe.close writable } else none

/-! ## Bytes in and out -/

/-- The action of a step. -/
def acted (x : State T × Event T) : Option Act :=
  match x.2 with
  | .go t c => act x.1.pipe c (x.1.caller t)
  | _ => none

/-- The byte put into the buffer in a step. -/
def putAt (x : State T × Event T) : Option UInt8 :=
  match acted x with
  | some (.put ch) => some ch
  | _ => none

/-- The byte taken out of the buffer in a step. -/
def takenAt (x : State T × Event T) : Option UInt8 :=
  match acted x with
  | some (.take _) => some x.1.pipe.first
  | _ => none

/-- The bytes put in, in order. -/
def putIn (h : List (State T × Event T)) : List UInt8 := h.reverse.filterMap putAt

/-- The bytes taken out, in order. -/
def takenOut (h : List (State T × Event T)) : List UInt8 := h.reverse.filterMap takenAt

variable {s s' s0 : State T} {e : Event T} {h : List (State T × Event T)} {a : Act} {p : Pipe}

omit [DecidableEq T] in
theorem putIn_cons {x : State T × Event T} : putIn (x :: h) = putIn h ++ (putAt x).toList := by
  unfold putIn
  cases hx : putAt x <;> simp [hx]

omit [DecidableEq T] in
theorem takenOut_cons {x : State T × Event T} : takenOut (x :: h) = takenOut h ++ (takenAt x).toList := by
  unfold takenOut
  cases hx : takenAt x <;> simp [hx]

/-! ## Steps -/

/-- The buffer holds the bytes of queue `q`. -/
def Buffers (p : Pipe) (q : List UInt8) : Prop := Ring.Holds (2 ^ 32) p.data p.nread p.nwrite q

theorem dvd_two_pow : PIPESIZE ∣ 2 ^ 32 := by decide

theorem pipesize_lt : PIPESIZE < 2 ^ 32 := by decide

/-- A byte is put in only when there is room. -/
theorem room_of_put (ha : act p c k = some (.put ch)) :
    p.nwrite ≠ (p.nread + PIPESIZE) % 2 ^ 32 := by
  intro hfull
  cases k with
  | writing n i =>
    simp only [act, if_pos hfull] at ha
    split_ifs at ha <;> cases ha
  | testing n | copying n i =>
    simp only [act] at ha
    split_ifs at ha <;> cases ha
  | leaving v | out | writeWait | readWait => cases ha

/-- A byte is taken out only when there is one. -/
theorem some_of_take {ok : Bool} (ha : act p c k = some (.take ok)) : p.nread ≠ p.nwrite := by
  intro hempty
  cases k with
  | writing n i =>
    simp only [act] at ha
    split_ifs at ha <;> first | cases ha | (split at ha <;> cases ha)
  | testing n =>
    simp only [act] at ha
    split_ifs at ha <;> cases ha
  | copying n i =>
    simp only [act, if_pos hempty] at ha
    split_ifs at ha <;> cases ha
  | leaving v | out | writeWait | readWait => cases ha

/-- What a step does to the pipe: it puts a byte in, takes one out, or leaves the bytes alone. -/
theorem step_cases (hs : step s e = some s') :
    (∃ ch, acted (s, e) = some (.put ch) ∧ s'.pipe = s.pipe.put ch ∧ s.pipe.nwrite ≠ (s.pipe.nread + PIPESIZE) % 2 ^ 32) ∨
    (∃ ok, acted (s, e) = some (.take ok) ∧ s'.pipe = s.pipe.take ∧ s.pipe.nread ≠ s.pipe.nwrite) ∨
    (putAt (s, e) = none ∧ takenAt (s, e) = none ∧ s'.pipe.data = s.pipe.data ∧ s'.pipe.nread = s.pipe.nread ∧
      s'.pipe.nwrite = s.pipe.nwrite) := by
  unfold step at hs
  rw [Option.ite_none_left_eq_some] at hs
  obtain ⟨-, hs⟩ := hs
  cases e with
  | write t n | read t n =>
    simp only [Option.ite_none_right_eq_some, Option.some.injEq] at hs
    obtain ⟨-, rfl⟩ := hs
    exact .inr (.inr ⟨rfl, rfl, rfl, rfl, rfl⟩)
  | acquire t =>
    simp only [Option.ite_none_right_eq_some, Option.map_eq_some_iff] at hs
    obtain ⟨-, c, -, rfl⟩ := hs
    exact .inr (.inr ⟨rfl, rfl, rfl, rfl, rfl⟩)
  | close writable =>
    simp only [Option.ite_none_right_eq_some, Option.some.injEq] at hs
    obtain ⟨-, rfl⟩ := hs
    cases writable <;> exact .inr (.inr ⟨rfl, rfl, rfl, rfl, rfl⟩)
  | go t c =>
    simp only [Option.ite_none_right_eq_some, Option.map_eq_some_iff] at hs
    obtain ⟨-, a, ha, rfl⟩ := hs
    have hacted : acted (s, .go t c) = some a := ha
    cases a with
    | put ch => exact .inl ⟨ch, hacted, rfl, room_of_put ha⟩
    | take ok => exact .inr (.inl ⟨ok, hacted, rfl, some_of_take ha⟩)
    | sleep | copy | ret => exact .inr (.inr ⟨by simp [putAt, hacted], by simp [takenAt, hacted], rfl, rfl, rfl⟩)

theorem Buffers.put (hq : Buffers p q)
    (hroom : p.nwrite ≠ (p.nread + PIPESIZE) % 2 ^ 32) : Buffers (p.put ch) (q ++ [ch]) := by
  have hne : q.length ≠ PIPESIZE := fun he => hroom ((hq.full_iff pipesize_lt).mpr he)
  have hle := hq.length_le
  exact Ring.Holds.put hq dvd_two_pow (by omega)

theorem Buffers.take (hq : Buffers p q) (hne : p.nread ≠ p.nwrite) :
    ∃ x q', q = x :: q' ∧ p.first = x ∧ Buffers p.take q' := by
  cases q with
  | nil => exact absurd ((hq.empty_iff pipesize_lt).mpr rfl) hne
  | cons x q =>
    obtain ⟨hx, hq'⟩ := Ring.Holds.take hq dvd_two_pow
    exact ⟨x, q, rfl, hx, hq'⟩

/-- **The buffer holds what has been put in and not taken out.** -/
theorem buffers_of_path (hp : Lts.Path step s0 h s) (h0 : s0.pipe = .alloc data) :
    ∃ q, putIn h = takenOut h ++ q ∧ Buffers s.pipe q := by
  induction hp with
  | nil =>
    refine ⟨[], rfl, ?_⟩
    rw [h0]
    exact Ring.Holds.nil (show 0 < 2 ^ 32 by decide)
  | @snoc h s s' e hp hs ih =>
    obtain ⟨q, heq, hq⟩ := ih
    rw [putIn_cons, takenOut_cons]
    rcases step_cases hs with ⟨ch, ha, hs', hroom⟩ | ⟨ok, ha, hs', hne⟩ | ⟨hput, htake, hdata, hr, hw⟩
    · refine ⟨q ++ [ch], ?_, ?_⟩
      · simp [putAt, takenAt, ha, heq]
      · rw [hs']
        exact hq.put hroom
    · obtain ⟨x, q', rfl, hx, hq'⟩ := hq.take hne
      refine ⟨q', ?_, ?_⟩
      · simp [putAt, takenAt, ha, heq, hx]
      · rw [hs']
        exact hq'
    · refine ⟨q, by simp [hput, htake, heq], ?_⟩
      rw [Buffers, hdata, hr, hw]
      exact hq

/-- **Pipe bytes arrive in order**: the bytes taken out are the first of those put in; `nwrite - nread` counts the ones
between, of which there are at most `PIPESIZE`; they are in the buffer, and no step overwrites them. -/
theorem pipe_in_order (hp : Lts.Path step s0 h s) (h0 : s0.pipe = .alloc data) :
    takenOut h <+: putIn h ∧ (takenOut h).length + s.pipe.count = (putIn h).length ∧ s.pipe.count ≤ PIPESIZE ∧
      (∀ j < s.pipe.count, some (s.pipe.data (Fin.ofNat PIPESIZE (s.pipe.nread + j))) =
        (putIn h)[(takenOut h).length + j]?) ∧
      ∀ e s', step s e = some s' → ∀ j < s.pipe.count,
        s'.pipe.data (Fin.ofNat PIPESIZE (s.pipe.nread + j)) = s.pipe.data (Fin.ofNat PIPESIZE (s.pipe.nread + j)) := by
  obtain ⟨q, heq, hq⟩ := buffers_of_path hp h0
  have hcount : s.pipe.count = q.length := hq.length_eq pipesize_lt
  rw [hcount, heq]
  refine ⟨List.prefix_append _ _, by rw [List.length_append], hq.length_le, fun j hj => ?_, fun e s' hs j hj => ?_⟩
  · rw [hq.cell j hj, List.getElem?_append_right (Nat.le_add_right _ _), Nat.add_sub_cancel_left]
    simp [hj]
  · rcases step_cases hs with ⟨ch, -, hs', hroom⟩ | ⟨ok, -, hs', -⟩ | ⟨-, -, hdata, -, -⟩
    · have hne : q.length ≠ PIPESIZE := fun he => hroom ((hq.full_iff pipesize_lt).mpr he)
      have hle := hq.length_le
      rw [hs']
      apply update_of_ne
      rw [hq.write_eq, Ring.ofNat_mod dvd_two_pow]
      exact Ring.ofNat_add_ne hj (by omega)
    · rw [hs']
      rfl
    · rw [hdata]

/-- A writer puts three bytes in, a reader takes two out. -/
def threeBytes : List (Event (Fin 2)) :=
  [.write 0 3, .read 1 2, .acquire 0, .go 0 ⟨false, some 7⟩, .go 0 ⟨false, some 8⟩, .go 0 ⟨false, some 9⟩,
    .go 0 ⟨false, none⟩, .acquire 1, .go 1 ⟨false, none⟩, .go 1 ⟨false, some 0⟩, .go 1 ⟨false, some 0⟩]

def newPipe : State (Fin 2) := ⟨.alloc fun _ => 0, none, fun _ => .out⟩

theorem pipe_in_order_two : ∃ (h : List (State (Fin 2) × Event (Fin 2))) (s : State (Fin 2)),
    Lts.Path step newPipe h s ∧ takenOut h = [7, 8] ∧ putIn h = [7, 8, 9] ∧
      takenOut h <+: putIn h ∧ s.pipe.count ≤ PIPESIZE := by
  have hrun : ∃ h s, Lts.Path step newPipe h s ∧ (takenOut h = [7, 8] ∧ putIn h = [7, 8, 9]) :=
    Lts.exists_path_of_replay (fun h _ => takenOut h = [7, 8] ∧ putIn h = [7, 8, 9]) threeBytes (by decide +kernel)
  obtain ⟨h, s, hp, htaken, hput⟩ := hrun
  have hall := pipe_in_order hp rfl
  exact ⟨h, s, hp, htaken, hput, hall.1, hall.2.2.1⟩

end Xv6Mlfq.Pipes
