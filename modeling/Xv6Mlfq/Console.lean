import Xv6Mlfq.Lib.Path
import Xv6Mlfq.Lib.Ring
import Xv6Mlfq.Lib.CInt

/-!
# Xv6Mlfq.Console — the line discipline of the console

`consoleintr` and `consoleread` of `console.c`.  A step is a stretch under `cons.lock`: an interrupt, or a reader from its call or
its wakeup on to its return or its next `sleep`.  A sleeper may go on at any time (the loop tests again).  Readers are not killed, and
`either_copyout` succeeds; the echo is left out.

* `Line`: what the discipline is for, a queue of bytes that can be read and a line that can still be edited.  `Shows` says that the
  ring with its three indices is one; `Shows.type`: an interrupt does to it what it should.
* `Outcome n q bs q'`: a read of size `n` takes `bs` from the queue `q` and leaves `q'`; `readLoop_cases`: the loop of `consoleread`,
  from where it stands.
* `console_lines`: what all reads of a run return, against all that has been typed.
-/

namespace Xv6Mlfq.Console

open Function CInt

/-! ## The code -/

def INPUT_BUF_SIZE : ℕ := 128

instance : NeZero INPUT_BUF_SIZE := ⟨by decide⟩

/-- `C(x)` -/
def ctrl (x : UInt8) : UInt8 := x - 64

/-- `'\n'` -/
def newline : UInt8 := 10

/-- `C('D')` -/
def eof : UInt8 := ctrl 68

/-- `cons` -/
structure Cons where
  buf : Fin INPUT_BUF_SIZE → UInt8
  r : ℕ
  w : ℕ
  e : ℕ

/-- `cons.buf[i % INPUT_BUF_SIZE]` -/
def Cons.at (s : Cons) (i : ℕ) : UInt8 := s.buf (Fin.ofNat INPUT_BUF_SIZE i)

/-- The loop of `C('U')`, which ends at `cons.w` at the latest. -/
def killLine : ℕ → Cons → Cons
  | 0, s => s
  | n + 1, s => if s.e ≠ s.w ∧ s.at (decU32 s.e) ≠ newline then killLine n { s with e := decU32 s.e } else s

/-- `consoleintr` -/
def consoleintr (s : Cons) (c : UInt8) : Cons :=
  if c = ctrl 80 then s
  else if c = ctrl 85 then killLine (subU32 s.e s.w) s
  else if c = ctrl 72 ∨ c = 0x7f then if s.e ≠ s.w then { s with e := decU32 s.e } else s
  else if c ≠ 0 ∧ subU32 s.e s.r < INPUT_BUF_SIZE then
    let c := if c = 13 then newline else c
    let s := { s with buf := update s.buf (Fin.ofNat INPUT_BUF_SIZE s.e) c, e := incU32 s.e }
    if c = newline ∨ c = eof ∨ subU32 s.e s.r = INPUT_BUF_SIZE then { s with w := s.e } else s
  else s

/-- A call of `consoleread`: `target`, `n`, and the bytes that have been copied out. -/
structure Read where
  target : ℕ
  n : ℕ
  bytes : List UInt8
  deriving DecidableEq

/-- A reader releases the lock in `sleep`, or returns the number of these bytes. -/
inductive Stop
  | sleep (rd : Read) | ret (bytes : List UInt8)
  deriving DecidableEq

/-- The loop of `consoleread`, until the lock is released -/
def readLoop (s : Cons) (target : ℕ) : ℕ → List UInt8 → Cons × Stop
  | 0, bs => (s, .ret bs)
  | n + 1, bs =>
    if s.r = s.w then (s, .sleep ⟨target, n + 1, bs⟩)
    else
      let c := s.at s.r
      let s := { s with r := incU32 s.r }
      if c = eof then
        -- saved for the next call, unless this one has nothing
        if n + 1 < target then ({ s with r := decU32 s.r }, .ret bs) else (s, .ret bs)
      else if c = newline then (s, .ret (bs ++ [c]))
      else readLoop s target n (bs ++ [c])

/-! ## Interrupts and readers -/

variable {T : Type} {q p q' q0 bs : List UInt8} {x : UInt8} {reads : List (ℕ × List UInt8)} {t : T}
  {rd : Read}

/-- The console, and the readers that sleep. -/
structure State (T : Type) where
  cons : Cons
  reader : T → Option Read

inductive Event (T : Type)
  | intr (c : UInt8) | read (t : T) (n : ℕ) | wake (t : T)

/-- Who runs `consoleread` in an event, and where it stands. -/
def State.runs (s : State T) : Event T → Option (T × Read)
  | .intr _ => none
  | .read t n => if s.reader t = none ∧ 0 < n then some (t, ⟨n, n, []⟩) else none
  | .wake t => (s.reader t).map fun rd => (t, rd)

/-- `consoleread` from where it stands -/
def Read.go (rd : Read) (s : Cons) : Cons × Stop := readLoop s rd.target rd.n rd.bytes

def Stop.waiting : Stop → Option Read
  | .sleep rd => some rd
  | .ret _ => none

def step [DecidableEq T] (s : State T) : Event T → Option (State T)
  | .intr c => some { s with cons := consoleintr s.cons c }
  | e => (s.runs e).map fun x => ⟨(x.2.go s.cons).1, update s.reader x.1 (x.2.go s.cons).2.waiting⟩

/-! ## The line -/

/-- What can be read, and what can be edited. -/
structure Line where
  ready : List UInt8
  edit : List UInt8

/-- A character is typed. -/
def Line.type (l : Line) (c : UInt8) : Line :=
  if c = ctrl 80 then l
  else if c = ctrl 85 then { l with edit := [] }
  else if c = ctrl 72 ∨ c = 0x7f then { l with edit := l.edit.dropLast }
  else if c ≠ 0 ∧ l.ready.length + l.edit.length < INPUT_BUF_SIZE then
    let c := if c = 13 then newline else c
    if c = newline ∨ c = eof ∨ l.ready.length + l.edit.length + 1 = INPUT_BUF_SIZE then ⟨l.ready ++ (l.edit ++ [c]), []⟩
    else { l with edit := l.edit ++ [c] }
  else l

/-- A byte that neither ends a line nor is the end of file. -/
def Plain (bs : List UInt8) : Prop := newline ∉ bs ∧ eof ∉ bs

/-- The ring from `r` on to `e` is the line, of which the part up to `w` can be read. -/
structure Shows (s : Cons) (l : Line) : Prop where
  ring : Ring.Holds (2 ^ 32) s.buf s.r s.e (l.ready ++ l.edit)
  w : s.w = (s.r + l.ready.length) % 2 ^ 32
  plain : newline ∉ l.edit

theorem size_dvd : INPUT_BUF_SIZE ∣ 2 ^ 32 := by decide

theorem size_lt : INPUT_BUF_SIZE < 2 ^ 32 := by decide

variable {s s' : Cons} {l l' : Line} {c : UInt8} {n : ℕ} {bs : List UInt8}

theorem Shows.ready (h : Shows s l) : Ring.Holds (2 ^ 32) s.buf s.r s.w l.ready := by
  rw [h.w]
  exact h.ring.left

theorem Shows.count (h : Shows s l) : subU32 s.e s.r = l.ready.length + l.edit.length := by
  have hlen := h.ring.length_eq size_lt
  rwa [List.length_append] at hlen

theorem Shows.length_le (h : Shows s l) : l.ready.length + l.edit.length ≤ INPUT_BUF_SIZE := by
  have hle := h.ring.length_le
  rwa [List.length_append] at hle

theorem Shows.e_eq (h : Shows s l) : s.e = (s.w + l.edit.length) % 2 ^ 32 := by
  rw [h.ring.write_eq, h.w, Nat.mod_add_mod, List.length_append, Nat.add_assoc]

/-- `cons.e - cons.w` counts what can be edited. -/
theorem Shows.count_edit (h : Shows s l) : subU32 s.e s.w = l.edit.length := by
  have hle := h.length_le
  have hw : s.w < 2 ^ 32 := h.w ▸ Nat.mod_lt _ (by decide)
  have hlt := size_lt
  rw [h.e_eq]
  unfold subU32
  omega

theorem Shows.e_eq_w_iff (h : Shows s l) : s.e = s.w ↔ l.edit = [] := by
  have hcount := h.count_edit
  have hw : s.w < 2 ^ 32 := h.w ▸ Nat.mod_lt _ (by decide)
  constructor
  · intro he
    rw [he] at hcount
    refine List.eq_nil_of_length_eq_zero ?_
    unfold subU32 at hcount
    omega
  · intro hnil
    rw [h.e_eq, hnil, List.length_nil, Nat.add_zero, Nat.mod_eq_of_lt hw]

/-- `e` moves back. -/
theorem Shows.back (h : Shows s ⟨q, bs ++ [x]⟩) :
    Shows { s with e := decU32 s.e } ⟨q, bs⟩ ∧ s.at (decU32 s.e) = x := by
  have hring := h.ring
  rw [← List.append_assoc] at hring
  obtain ⟨hpop, hx⟩ := hring.pop size_dvd
  exact ⟨⟨hpop, h.w, fun hin => h.plain (List.mem_append_left _ hin)⟩, hx⟩

/-- `C('U')` empties the line: there is no newline in it. -/
theorem Shows.killLine (h : Shows s ⟨q, bs⟩) (hn : n = bs.length) : Shows (killLine n s) ⟨q, []⟩ := by
  induction n generalizing s bs with
  | zero =>
    obtain rfl := List.eq_nil_of_length_eq_zero hn.symm
    exact h
  | succ n ih =>
    obtain ⟨p, x, rfl⟩ : ∃ p x, bs = p ++ [x] := ⟨_, _, (List.dropLast_append_getLast (by rintro rfl; cases hn)).symm⟩
    obtain ⟨hback, hx⟩ := h.back
    have hne : s.e ≠ s.w := fun he => by simpa using h.e_eq_w_iff.mp he
    have hnl : s.at (decU32 s.e) ≠ newline := by
      rintro he
      exact h.plain (by simp [← he, hx])
    rw [Console.killLine, if_pos ⟨hne, hnl⟩]
    exact ih hback (by simpa using hn)

/-- A character is stored at `e`. -/
def Cons.store (s : Cons) (c : UInt8) : Cons :=
  { s with buf := update s.buf (Fin.ofNat INPUT_BUF_SIZE s.e) c, e := incU32 s.e }

theorem Shows.store (h : Shows s l) (hroom : l.ready.length + l.edit.length < INPUT_BUF_SIZE) :
    Ring.Holds (2 ^ 32) (s.store c).buf (s.store c).r (s.store c).e (l.ready ++ (l.edit ++ [c])) := by
  rw [← List.append_assoc]
  exact h.ring.put size_dvd (by rwa [List.length_append])

/-- **An interrupt does to the line what it should.** -/
theorem Shows.type (h : Shows s l) : Shows (consoleintr s c) (l.type c) := by
  unfold consoleintr Line.type
  by_cases hp : c = ctrl 80
  · rwa [if_pos hp, if_pos hp]
  rw [if_neg hp, if_neg hp]
  by_cases hu : c = ctrl 85
  · rw [if_pos hu, if_pos hu]
    exact h.killLine h.count_edit
  rw [if_neg hu, if_neg hu]
  by_cases hh : c = ctrl 72 ∨ c = 0x7f
  · rw [if_pos hh, if_pos hh]
    by_cases he : s.e ≠ s.w
    · have hne : l.edit ≠ [] := fun hnil => he (h.e_eq_w_iff.mpr hnil)
      rw [if_pos he]
      have hlast : Shows s ⟨l.ready, l.edit.dropLast ++ [l.edit.getLast hne]⟩ := by rwa [List.dropLast_append_getLast]
      exact hlast.back.1
    · have hdrop : l.edit.dropLast = l.edit := by
        rw [h.e_eq_w_iff.mp (not_not.mp he)]
        rfl
      rw [if_neg he, hdrop]
      exact h
  rw [if_neg hh, if_neg hh, h.count]
  by_cases hroom : c ≠ 0 ∧ l.ready.length + l.edit.length < INPUT_BUF_SIZE
  · rw [if_pos hroom, if_pos hroom]
    obtain ⟨d, hd⟩ : ∃ d, d = if c = 13 then newline else c := ⟨_, rfl⟩
    have hstore : Ring.Holds _ _ _ _ (l.ready ++ (l.edit ++ [d])) := h.store hroom.2
    have hcount : subU32 (s.store d).e (s.store d).r = l.ready.length + l.edit.length + 1 := by
      have hlen := hstore.length_eq size_lt
      rwa [List.length_append, List.length_append, List.length_singleton, ← Nat.add_assoc] at hlen
    dsimp only
    rw [← hd]
    change Shows (if d = newline ∨ d = eof ∨ subU32 (s.store d).e (s.store d).r = INPUT_BUF_SIZE then
      { s.store d with w := (s.store d).e } else s.store d) _
    rw [hcount]
    by_cases hend : d = newline ∨ d = eof ∨ l.ready.length + l.edit.length + 1 = INPUT_BUF_SIZE
    · rw [if_pos hend, if_pos hend]
      refine ⟨?_, hstore.write_eq, nofun⟩
      rw [List.append_nil]
      exact hstore
    · rw [if_neg hend, if_neg hend]
      refine ⟨hstore, h.w, fun hin => ?_⟩
      rcases List.mem_append.mp hin with hin | hin
      · exact h.plain hin
      · exact hend (.inl (List.mem_singleton.mp hin).symm)
  · rw [if_neg hroom, if_neg hroom]
    exact h

/-- Typing commits bytes behind those that can be read. -/
theorem Line.ready_prefix (l : Line) (c : UInt8) : l.ready <+: (l.type c).ready := by
  unfold Line.type
  dsimp only
  split_ifs
  all_goals first | exact List.prefix_rfl | exact List.prefix_append _ _

theorem killLine_r (n : ℕ) (s : Cons) : (killLine n s).r = s.r ∧ (killLine n s).buf = s.buf := by
  induction n generalizing s with
  | zero => exact ⟨rfl, rfl⟩
  | succ n ih =>
    rw [killLine]
    split_ifs
    · exact ih _
    · exact ⟨rfl, rfl⟩

theorem consoleintr_r (s : Cons) (c : UInt8) : (consoleintr s c).r = s.r := by
  unfold consoleintr
  dsimp only
  split_ifs
  all_goals first | rfl | exact (killLine_r _ _).1

/-! ## Reading -/

inductive Outcome (n : ℕ) : List UInt8 → List UInt8 → List UInt8 → Prop
  /- all that has been asked for -/
  | full {bs q : List UInt8} (length : bs.length = n) (plain : Plain bs) : Outcome n (bs ++ q) bs q
  /- up to a newline -/
  | line {bs q : List UInt8} (length : bs.length < n) (plain : Plain bs) : Outcome n (bs ++ newline :: q) (bs ++ [newline]) q
  /- nothing: the end of file comes first, and is consumed -/
  | eof {q : List UInt8} : Outcome n (Console.eof :: q) [] q
  /- up to an end of file, which is left for the next read -/
  | stop {bs q : List UInt8} (ne : bs ≠ []) (length : bs.length < n) (plain : Plain bs) :
      Outcome n (bs ++ Console.eof :: q) bs (Console.eof :: q)

/-- The bytes of a queue that are read. -/
def text (q : List UInt8) : List UInt8 := q.filter (· ≠ eof)

theorem Plain.append {cs : List UInt8} (hb : Plain bs) (hc : Plain cs) : Plain (bs ++ cs) :=
  ⟨fun h => (List.mem_append.mp h).elim hb.1 hc.1, fun h => (List.mem_append.mp h).elim hb.2 hc.2⟩

theorem Shows.take (h : Shows s ⟨x :: q, p⟩) :
    s.at s.r = x ∧ Shows { s with r := incU32 s.r } ⟨q, p⟩ := by
  have hring : Ring.Holds (2 ^ 32) s.buf s.r s.e (x :: (q ++ p)) := h.ring
  obtain ⟨hx, htake⟩ := hring.take size_dvd
  exact ⟨hx, htake, (h.ready.take size_dvd).2.write_eq, h.plain⟩

/-- What a reader that has `bytes` does with the queue `q`. -/
structure Took (target n : ℕ) (bytes q : List UInt8) (y q' : List UInt8) (o : Stop) : Prop where
  text_eq : text q = y ++ text q'
  stop : o = .sleep ⟨target, n - y.length, bytes ++ y⟩ ∧ q' = [] ∧ Plain (bytes ++ y) ∧ y.length < n ∧ bytes ++ q = bytes ++ y ∨
    o = .ret (bytes ++ y) ∧ Outcome target (bytes ++ q) (bytes ++ y) q'

theorem readLoop_took {target : ℕ} {bytes : List UInt8} (h : Shows s ⟨q, p⟩) (hplain : Plain bytes)
    (hn : bytes.length + n = target) : ∃ y q', Shows (readLoop s target n bytes).1 ⟨q', p⟩ ∧
      Took target n bytes q y q' (readLoop s target n bytes).2 := by
  induction n generalizing s bytes q with
  | zero =>
    refine ⟨[], q, h, rfl, .inr ⟨by rw [readLoop, List.append_nil], ?_⟩⟩
    rw [List.append_nil]
    exact .full hn hplain
  | succ n ih =>
    rw [readLoop]
    cases q with
    | nil =>
      have hempty : s.r = s.w := (h.ready.empty_iff size_lt).mpr rfl
      rw [if_pos hempty]
      refine ⟨[], [], h, rfl, .inl ⟨by rw [List.append_nil]; rfl, rfl, by rwa [List.append_nil], Nat.succ_pos n, rfl⟩⟩
    | cons x q =>
      have hsome : s.r ≠ s.w := fun he => by cases (h.ready.empty_iff size_lt).mp he
      obtain ⟨hx, htake⟩ := h.take
      rw [if_neg hsome, hx]
      dsimp only
      by_cases heof : x = eof
      · subst heof
        have hdrop : text (eof :: q) = text q := by simp [text]
        rw [if_pos rfl]
        by_cases hsome : n + 1 < target
        · have hback : ({ s with r := decU32 (incU32 s.r) } : Cons) = s := by rw [decU32_incU32 h.ring.read_lt]
          rw [if_pos hsome, hback]
          refine ⟨[], eof :: q, h, rfl, .inr ⟨by rw [List.append_nil], ?_⟩⟩
          rw [List.append_nil]
          refine .stop ?_ (by omega) hplain
          rintro rfl
          rw [List.length_nil] at hn
          omega
        · have hnil : bytes = [] := List.eq_nil_of_length_eq_zero (by omega)
          rw [if_neg hsome, hnil]
          exact ⟨[], q, htake, hdrop, .inr ⟨rfl, .eof⟩⟩
      rw [if_neg heof]
      have hkeep : text (x :: q) = x :: text q := by simp [text, heof]
      by_cases hnl : x = newline
      · subst hnl
        rw [if_pos rfl]
        exact ⟨[newline], q, htake, hkeep, .inr ⟨rfl, .line (by omega) hplain⟩⟩
      · rw [if_neg hnl]
        have hx : Plain [x] := ⟨by simpa using Ne.symm hnl, by simpa using Ne.symm heof⟩
        obtain ⟨y, q', hshow, htext, hstop⟩ := ih htake (hplain.append hx) (by rw [List.length_append, List.length_singleton]; omega)
        refine ⟨x :: y, q', hshow, by rw [hkeep, htext]; rfl, ?_⟩
        simp only [List.append_assoc, List.singleton_append] at hstop
        have hsub : n + 1 - (x :: y).length = n - y.length := by
          rw [List.length_cons]
          omega
        rw [hsub, List.length_cons]
        rcases hstop with ⟨ho, h1, h2, h3, h4⟩ | hret
        · exact .inl ⟨ho, h1, h2, by omega, h4⟩
        · exact .inr hret

theorem Outcome.text_eq (h : Outcome n q bs q') : text q = bs ++ text q' := by
  have hplain : ∀ {bs : List UInt8}, Plain bs → text bs = bs := fun hb => List.filter_eq_self.mpr fun x hx => by
    simpa using fun he : x = Console.eof => hb.2 (he ▸ hx)
  cases h with
  | full _ plain | stop _ _ plain => rw [text, List.filter_append, ← text, hplain plain, text]
  | line _ plain =>
    rw [text, List.filter_append, ← text, hplain plain, List.append_assoc]
    rfl
  | eof => simp [text]

theorem Outcome.append (h : Outcome n q bs q') (x : List UInt8) : Outcome n (q ++ x) bs (q' ++ x) := by
  cases h with
  | full length plain =>
    rw [List.append_assoc]
    exact .full length plain
  | line length plain =>
    rw [List.append_assoc]
    exact .line length plain
  | eof => exact .eof
  | stop ne length plain =>
    rw [List.append_assoc]
    exact .stop ne length plain

/-- One read after the other, from a queue that holds all that will ever come. -/
inductive Served : List (ℕ × List UInt8) → List UInt8 → List UInt8 → Prop
  | nil {q : List UInt8} : Served [] q q
  | read {reads : List (ℕ × List UInt8)} {q0 q q' : List UInt8} {n : ℕ} {bs : List UInt8} (before : Served reads q0 q)
      (outcome : Outcome n q bs q') : Served (reads ++ [(n, bs)]) q0 q'

theorem Served.append (h : Served reads q0 q) (x : List UInt8) :
    Served reads (q0 ++ x) (q ++ x) := by
  induction h with
  | nil => exact .nil
  | read _ outcome ih => exact .read ih (outcome.append x)

/-- Nothing is lost, and nothing comes twice or out of order. -/
theorem Served.text_eq (h : Served reads q0 q) :
    text q0 = (reads.map Prod.snd).flatten ++ text q := by
  induction h with
  | nil => rfl
  | read _ outcome ih =>
    rw [ih, outcome.text_eq]
    simp

/-! ## Runs -/

/-- The bytes in the ring from index `a` on to index `b`. -/
def Cons.between (s : Cons) (a b : ℕ) : List UInt8 := (List.range (subU32 b a)).map fun i => s.at (a + i)

/-- The bytes that can be read. -/
def Cons.ready (s : Cons) : List UInt8 := s.between s.r s.w

/-- The bytes that a step lets `w` pass. -/
def committedAt (x : State T × Event T) : List UInt8 :=
  match x.2 with
  | .intr c => (consoleintr x.1.cons c).between x.1.cons.w (consoleintr x.1.cons c).w
  | _ => []

def Stop.bytes : Stop → List UInt8
  | .sleep rd => rd.bytes
  | .ret bs => bs

/-- The bytes that a reader copies out in a step. -/
def copiedAt (x : State T × Event T) : List UInt8 :=
  match x.1.runs x.2 with
  | some (_, rd) => (rd.go x.1.cons).2.bytes.drop rd.bytes.length
  | none => []

/-- The size and the result of a read that returns in a step. -/
def resultAt (x : State T × Event T) : Option (ℕ × List UInt8) :=
  match x.1.runs x.2 with
  | some (_, rd) =>
    match (rd.go x.1.cons).2 with
    | .ret bs => some (rd.target, bs)
    | .sleep _ => none
  | none => none

/-- The committed input. -/
def committed (h : List (State T × Event T)) : List UInt8 := h.reverse.flatMap committedAt

/-- What has been copied out by all readers, in order. -/
def copied (h : List (State T × Event T)) : List UInt8 := h.reverse.flatMap copiedAt

/-- The reads that have returned, in order. -/
def results (h : List (State T × Event T)) : List (ℕ × List UInt8) := h.reverse.filterMap resultAt

section Run

variable {σ σ' σ0 : State T} {e : Event T} {h : List (State T × Event T)} {x : State T × Event T}

theorem committed_cons : committed (x :: h) = committed h ++ committedAt x := by simp [committed]

theorem copied_cons : copied (x :: h) = copied h ++ copiedAt x := by simp [copied]

theorem results_cons : results (x :: h) = results h ++ (resultAt x).toList := by
  unfold results
  cases hx : resultAt x <;> simp [hx]

/-- The bytes behind the first `p.length` of those that can be read. -/
theorem Shows.between {a : ℕ} {x : List UInt8} (h : Shows s l) (hx : l.ready = p ++ x) (ha : a = (s.r + p.length) % 2 ^ 32) :
    s.between a s.w = x := by
  have hle := h.ready.length_le
  have hlt := size_lt
  rw [hx, List.length_append] at hle
  have hcount : subU32 s.w a = x.length := by
    have hw : s.w = (a + x.length) % 2 ^ 32 := by
      rw [h.w, hx, List.length_append, ← Nat.add_assoc, ha, Nat.mod_add_mod]
    have ha' : a < 2 ^ 32 := ha ▸ Nat.mod_lt _ (by decide)
    rw [hw]
    unfold subU32
    omega
  rw [Cons.between, hcount]
  refine List.ext_getElem (by simp) fun i h1 h2 => ?_
  have hcell := h.ready.cell (p.length + i) (by rw [hx, List.length_append]; omega)
  have haddr : Fin.ofNat INPUT_BUF_SIZE (a + i) = Fin.ofNat INPUT_BUF_SIZE (s.r + (p.length + i)) := by
    rw [ha, ← Ring.ofNat_mod size_dvd, Nat.mod_add_mod, Ring.ofNat_mod size_dvd, Nat.add_assoc]
  simp only [List.getElem_map, List.getElem_range]
  rw [Cons.at, haddr, hcell]
  simp [hx]

theorem Shows.ready_eq (h : Shows s l) : s.ready = l.ready :=
  h.between (p := []) rfl (Nat.mod_eq_of_lt h.ring.read_lt).symm

/-- A reader that sleeps has not come to an end. -/
structure Read.Ok (rd : Read) : Prop where
  plain : Plain rd.bytes
  length : rd.bytes.length + rd.n = rd.target
  pos : 0 < rd.n

theorem runs_ok (hok : ∀ t rd, σ.reader t = some rd → rd.Ok) (hruns : σ.runs e = some (t, rd)) : rd.Ok := by
  cases e with
  | intr c => cases hruns
  | read u n =>
    rw [State.runs, Option.ite_none_right_eq_some] at hruns
    obtain ⟨⟨-, hpos⟩, heq⟩ := hruns
    cases heq
    exact ⟨⟨nofun, nofun⟩, by simp, hpos⟩
  | wake u =>
    obtain ⟨rd', hrd, heq⟩ := Option.map_eq_some_iff.mp hruns
    cases heq
    exact hok t rd hrd

/-- A read that returns in the step ends at its size, after a newline or at an end of file: it returns the bytes that the reader had,
and of those that can be read. -/
def EndsRight (x : State T × Event T) : Prop := ∀ t rd bs, x.1.runs x.2 = some (t, rd) → (rd.go x.1.cons).2 = .ret bs →
  Outcome rd.target (rd.bytes ++ x.1.cons.ready) bs (rd.go x.1.cons).1.ready

/-- What holds in every run: the ring shows a line, of which all that has been committed and not copied out can be read. -/
structure Reached (h : List (State T × Event T)) (σ : State T) (l : Line) : Prop where
  shows : Shows σ.cons l
  ok : ∀ t rd, σ.reader t = some rd → rd.Ok
  text_eq : text (committed h) = copied h ++ text l.ready
  ended : ∀ x ∈ h, EndsRight x

theorem Reached.intr (hr : Reached h σ l) (c : UInt8) : Reached ((σ, .intr c) :: h) { σ with cons := consoleintr σ.cons c } (l.type c) ∧
    (l.type c).ready = l.ready ++ committedAt (σ, .intr c) := by
  have hshows := hr.shows.type (c := c)
  obtain ⟨x, hx⟩ := l.ready_prefix c
  have hcommit : committedAt (σ, .intr c) = x :=
    hshows.between hx.symm (by rw [consoleintr_r, hr.shows.w])
  have hcopied : copied ((σ, .intr c) :: h) = copied h := by
    rw [copied_cons]
    exact List.append_nil _
  refine ⟨⟨hshows, hr.ok, ?_, List.forall_mem_cons.mpr ⟨(fun t rd bs hruns => by cases hruns), hr.ended⟩⟩, by rw [hcommit, hx]⟩
  rw [committed_cons, hcopied, hcommit, ← hx, text, List.filter_append, ← text, hr.text_eq, List.append_assoc, text, text,
    List.filter_append]

theorem committedAt_of_runs {y : T × Read} (hruns : σ.runs e = some y) : committedAt (σ, e) = [] := by
  cases e with
  | intr c => cases hruns
  | read | wake => rfl

variable [DecidableEq T]

theorem step_cases (hs : step σ e = some σ') : (∃ c, e = .intr c ∧ σ' = { σ with cons := consoleintr σ.cons c }) ∨
    ∃ t rd, σ.runs e = some (t, rd) ∧ σ' = ⟨(rd.go σ.cons).1, update σ.reader t (rd.go σ.cons).2.waiting⟩ := by
  cases e with
  | intr c =>
    cases hs
    exact .inl ⟨c, rfl, rfl⟩
  | read t n | wake t =>
    obtain ⟨x, hx, rfl⟩ := Option.map_eq_some_iff.mp hs
    exact .inr ⟨x.1, x.2, hx, rfl⟩

/-- A reader runs. -/
theorem Reached.ran (hr : Reached h σ l) (hruns : σ.runs e = some (t, rd)) : ∃ y q',
    Took rd.target rd.n rd.bytes l.ready y q' (rd.go σ.cons).2 ∧
    Reached ((σ, e) :: h) ⟨(rd.go σ.cons).1, update σ.reader t (rd.go σ.cons).2.waiting⟩ ⟨q', l.edit⟩ := by
  have hok := runs_ok hr.ok hruns
  obtain ⟨y, q', hshows, htook⟩ := readLoop_took (show Shows σ.cons ⟨l.ready, l.edit⟩ from hr.shows) hok.plain hok.length
  have hgo : rd.go σ.cons = readLoop σ.cons rd.target rd.n rd.bytes := rfl
  rw [← hgo] at hshows htook
  obtain ⟨htext, hstop⟩ := htook
  have hbytes : (rd.go σ.cons).2.bytes = rd.bytes ++ y := by
    rcases hstop with ⟨ho, -⟩ | ⟨ho, -⟩
    · rw [ho]
      rfl
    · rw [ho]
      rfl
  have hcopied : copiedAt (σ, e) = y := by
    simp only [copiedAt, hruns, hbytes, List.drop_left]
  refine ⟨y, q', ⟨htext, hstop⟩, hshows, fun u rd' hu => ?_, ?_, List.forall_mem_cons.mpr ⟨fun u rd' bs hrun hret => ?_, hr.ended⟩⟩
  · by_cases hut : u = t
    · subst hut
      change update σ.reader u _ u = _ at hu
      rw [update_self] at hu
      rcases hstop with ⟨ho, -, hplain, hlt, -⟩ | ⟨ho, -⟩
      · rw [ho] at hu
        cases hu
        refine ⟨hplain, ?_, Nat.sub_pos_of_lt hlt⟩
        have := hok.length
        simp only [List.length_append]
        omega
      · rw [ho] at hu
        cases hu
    · change update σ.reader t _ u = _ at hu
      rw [update_of_ne hut] at hu
      exact hr.ok u rd' hu
  · rw [committed_cons, committedAt_of_runs hruns, List.append_nil, copied_cons, hcopied, hr.text_eq, htext, List.append_assoc]
  · obtain ⟨rfl, rfl⟩ : t = u ∧ rd = rd' := by simpa [hruns] using hrun
    rcases hstop with ⟨ho, -⟩ | ⟨ho, hout⟩
    · rw [ho] at hret
      cases hret
    · rw [ho] at hret
      cases hret
      rwa [hr.shows.ready_eq, hshows.ready_eq]

theorem reached_of_path (hp : Lts.Path step σ0 h σ) (hr : σ0.cons.r < 2 ^ 32) (hw : σ0.cons.w = σ0.cons.r) (he : σ0.cons.e = σ0.cons.r)
    (hidle : ∀ t, σ0.reader t = none) : ∃ l, Reached h σ l := by
  induction hp with
  | nil =>
    refine ⟨⟨[], []⟩, ⟨?_, ?_, nofun⟩, fun t rd ht => ?_, rfl, nofun⟩
    · rw [he]
      exact Ring.Holds.nil hr
    · rw [hw]
      exact (Nat.mod_eq_of_lt hr).symm
    · rw [hidle t] at ht
      cases ht
  | snoc _ hs ih =>
    obtain ⟨l, hl⟩ := ih
    rcases step_cases hs with ⟨c, rfl, rfl⟩ | ⟨t, rd, hruns, rfl⟩
    · exact ⟨_, (hl.intr c).1⟩
    · obtain ⟨y, q', -, hreached⟩ := hl.ran hruns
      exact ⟨_, hreached⟩

/-- What holds when no read starts before the last has returned; `bs` has been copied out by the one in progress. -/
structure Alone (h : List (State T × Event T)) (σ : State T) (l : Line) (bs : List UInt8) : Prop where
  served : Served (results h) (committed h) (bs ++ l.ready)
  one : ∀ t rd, σ.reader t = some rd → rd.bytes = bs ∧ ∀ u, u ≠ t → σ.reader u = none
  idle : (∀ t, σ.reader t = none) → bs = []

omit [DecidableEq T] in
theorem Alone.intr (ha : Alone h σ l bs) (hr : Reached h σ l) (c : UInt8) :
    Alone ((σ, .intr c) :: h) { σ with cons := consoleintr σ.cons c } (l.type c) bs := by
  refine ⟨?_, ha.one, ha.idle⟩
  have hresults : results ((σ, .intr c) :: h) = results h := by
    rw [results_cons]
    exact List.append_nil _
  rw [hresults, committed_cons, (hr.intr c).2, ← List.append_assoc]
  exact ha.served.append _

/-- The only reader runs. -/
theorem Alone.ran {y : List UInt8} (ha : Alone h σ l bs) (hruns : σ.runs e = some (t, rd)) (hbs : rd.bytes = bs)
    (hothers : ∀ u, u ≠ t → σ.reader u = none) (htook : Took rd.target rd.n rd.bytes l.ready y q' (rd.go σ.cons).2) :
    ∃ bs', Alone ((σ, e) :: h) ⟨(rd.go σ.cons).1, update σ.reader t (rd.go σ.cons).2.waiting⟩ ⟨q', l.edit⟩ bs' := by
  have hcommit : committed ((σ, e) :: h) = committed h := by rw [committed_cons, committedAt_of_runs hruns, List.append_nil]
  have hother : ∀ {o : Option Read} {u : T}, u ≠ t → update σ.reader t o u = none := fun hu => (update_of_ne hu _ _).trans (hothers _ hu)
  rcases htook.stop with ⟨ho, hq, -, -, hall⟩ | ⟨ho, hout⟩
  · have hresults : results ((σ, e) :: h) = results h := by simp [results_cons, resultAt, hruns, ho]
    refine ⟨rd.bytes ++ y, ?_, fun u rd' hu => ?_, fun hidle => ?_⟩
    · rw [hresults, hcommit, hq, List.append_nil, ← hall, hbs]
      exact ha.served
    · by_cases hut : u = t
      · subst hut
        refine ⟨?_, fun v hv => hother hv⟩
        have hwait : some rd' = (rd.go σ.cons).2.waiting := hu.symm.trans (update_self ..)
        rw [ho] at hwait
        cases hwait
        rfl
      · cases hu.symm.trans (hother hut)
    · have hwait : update σ.reader t (rd.go σ.cons).2.waiting t = none := hidle t
      rw [update_self, ho] at hwait
      cases hwait
  · have hresults : results ((σ, e) :: h) = results h ++ [(rd.target, rd.bytes ++ y)] := by simp [results_cons, resultAt, hruns, ho]
    have hnone : ∀ u, update σ.reader t (rd.go σ.cons).2.waiting u = none := by
      intro u
      by_cases hut : u = t
      · rw [hut, update_self, ho]
        rfl
      · exact hother hut
    refine ⟨[], ?_, fun u rd' hu => ?_, fun _ => rfl⟩
    · rw [hresults, hcommit]
      refine .read ha.served ?_
      rw [← hbs]
      exact hout
    · cases hu.symm.trans (hnone u)

def Event.isRead : Event T → Bool
  | .read _ _ => true
  | _ => false

/-- No read starts before the last has returned. -/
def OneByOne (h : List (State T × Event T)) : Prop := ∀ x ∈ h, x.2.isRead = true → ∀ u, x.1.reader u = none

theorem alone_of_path (hp : Lts.Path step σ0 h σ) (hr : σ0.cons.r < 2 ^ 32) (hw : σ0.cons.w = σ0.cons.r) (he : σ0.cons.e = σ0.cons.r)
    (hidle : ∀ t, σ0.reader t = none) (hone : OneByOne h) : ∃ l bs, Reached h σ l ∧ Alone h σ l bs := by
  induction hp with
  | nil =>
    obtain ⟨l, hl⟩ := reached_of_path .nil hr hw he hidle
    have hnil : l.ready = [] := (hl.shows.ready.empty_iff size_lt).mp hw.symm
    refine ⟨l, [], hl, ?_, fun t rd ht => ?_, fun _ => rfl⟩
    · rw [hnil]
      exact .nil
    · rw [hidle t] at ht
      cases ht
  | @snoc h σ σ' e _ hs ih =>
    obtain ⟨l, bs, hl, ha⟩ := ih fun x hx => hone x (List.mem_cons_of_mem _ hx)
    rcases step_cases hs with ⟨c, rfl, rfl⟩ | ⟨t, rd, hruns, rfl⟩
    · exact ⟨_, _, (hl.intr c).1, ha.intr hl c⟩
    · obtain ⟨y, q', htook, hreached⟩ := hl.ran hruns
      have hlone : rd.bytes = bs ∧ ∀ u, u ≠ t → σ.reader u = none := by
        cases e with
        | intr c => cases hruns
        | read v n =>
          have hall := hone _ List.mem_cons_self rfl
          rw [State.runs, Option.ite_none_right_eq_some] at hruns
          obtain ⟨-, heq⟩ := hruns
          cases heq
          exact ⟨(ha.idle hall).symm, fun u _ => hall u⟩
        | wake v =>
          obtain ⟨rd', hrd, heq⟩ := Option.map_eq_some_iff.mp hruns
          cases heq
          exact ha.one t rd hrd
      obtain ⟨bs', ha'⟩ := ha.ran hruns hlone.1 hlone.2 htook
      exact ⟨_, bs', hreached, ha'⟩

/-- **The line discipline of the console.**  The indices stay in order and at most a buffer apart; typing does not change what has
been committed; what all readers copy out, in order, is a part of the committed input from its beginning on, without the ends of
file; a read that returns has, of the bytes that its reader had and then those that could be read, all up to its size, a newline or an
end of file.  When no read starts before the last has returned, the
results are those of one read after the other from the committed input. -/
theorem console_lines (hp : Lts.Path step σ0 h σ) (hr : σ0.cons.r < 2 ^ 32) (hw : σ0.cons.w = σ0.cons.r) (he : σ0.cons.e = σ0.cons.r)
    (hidle : ∀ t, σ0.reader t = none) :
    (subU32 σ.cons.w σ.cons.r ≤ subU32 σ.cons.e σ.cons.r ∧ subU32 σ.cons.e σ.cons.r ≤ INPUT_BUF_SIZE) ∧
    (∀ c, (consoleintr σ.cons c).r = σ.cons.r ∧ subU32 σ.cons.w σ.cons.r ≤ subU32 (consoleintr σ.cons c).w σ.cons.r ∧
      ∀ j < subU32 σ.cons.w σ.cons.r, (consoleintr σ.cons c).at (σ.cons.r + j) = σ.cons.at (σ.cons.r + j)) ∧
    copied h <+: text (committed h) ∧
    (∀ x ∈ h, ∀ t rd bs, x.1.runs x.2 = some (t, rd) → (rd.go x.1.cons).2 = .ret bs →
      Outcome rd.target (rd.bytes ++ x.1.cons.ready) bs (rd.go x.1.cons).1.ready) ∧
    (OneByOne h → (∃ q, Served (results h) (committed h) q) ∧ ((results h).map Prod.snd).flatten <+: text (committed h)) := by
  obtain ⟨l, hl⟩ := reached_of_path hp hr hw he hidle
  have hcount : subU32 σ.cons.w σ.cons.r = l.ready.length := hl.shows.ready.length_eq size_lt
  refine ⟨?_, fun c => ?_, ?_, hl.ended, fun hone => ?_⟩
  · have hle := hl.shows.length_le
    rw [hcount, hl.shows.count]
    omega
  · have hshows := hl.shows.type (c := c)
    obtain ⟨x, hx⟩ := l.ready_prefix c
    have hcount' : subU32 (consoleintr σ.cons c).w σ.cons.r = (l.type c).ready.length := by
      rw [← consoleintr_r σ.cons c]
      exact hshows.ready.length_eq size_lt
    have hr := consoleintr_r σ.cons c
    refine ⟨hr, ?_, fun j hj => ?_⟩
    · rw [hcount, hcount', ← hx, List.length_append]
      omega
    · rw [hcount] at hj
      have hnew := hshows.ready.cell j (by rw [← hx, List.length_append]; omega)
      rw [hr] at hnew
      rw [Cons.at, hnew, Cons.at, hl.shows.ready.cell j hj]
      simp [← hx, hj]
  · rw [hl.text_eq]
    exact List.prefix_append _ _
  · obtain ⟨l, bs, -, ha⟩ := alone_of_path hp hr hw he hidle hone
    refine ⟨⟨_, ha.served⟩, ?_⟩
    rw [ha.served.text_eq]
    exact List.prefix_append _ _

end Run

/-- A console without input, whose indices are about to wrap around. -/
def quiet : State (Fin 2) := ⟨⟨fun _ => 0, 2 ^ 32 - 2, 2 ^ 32 - 2, 2 ^ 32 - 2⟩, fun _ => none⟩

/-- A line with a correction, an end of file in the middle of a line, and four reads. -/
def typing : List (Event (Fin 2)) :=
  [.read 0 10, .intr 97, .intr 98, .intr 8, .intr 13, .wake 0, .intr 99, .intr 4, .read 1 10, .read 1 10, .intr 100, .intr 10, .read 0 1]

theorem console_lines_typing : ∃ h σ, Lts.Path step quiet h σ ∧ committed h = [97, 10, 99, 4, 100, 10] ∧
    results h = [(10, [97, 10]), (10, [99]), (10, []), (1, [100])] ∧ ∃ q, Served (results h) (committed h) q := by
  have hrun : ∃ h σ, Lts.Path step quiet h σ ∧ (committed h = [97, 10, 99, 4, 100, 10] ∧
      results h = [(10, [97, 10]), (10, [99]), (10, []), (1, [100])] ∧ ∀ x ∈ h, x.2.isRead = true → ∀ u, x.1.reader u = none) :=
    Lts.exists_path_of_replay (fun h _ => committed h = [97, 10, 99, 4, 100, 10] ∧
      results h = [(10, [97, 10]), (10, [99]), (10, []), (1, [100])] ∧ ∀ x ∈ h, x.2.isRead = true → ∀ u, x.1.reader u = none)
      typing (by decide +kernel)
  obtain ⟨h, σ, hp, hcommitted, hresults, hone⟩ := hrun
  exact ⟨h, σ, hp, hcommitted, hresults, ((console_lines hp (by decide) rfl rfl fun _ => rfl).2.2.2.2 hone).1⟩

/-- A reader has a full buffer without a newline, and waits; another takes the next line. -/
def overlapping : List (Event (Fin 2)) :=
  List.replicate 128 (.intr 97) ++ [.read 0 200, .intr 120, .intr 10, .read 1 10, .intr 121, .intr 10, .wake 0]

/-- Reads that overlap do not take consecutive parts of the input: neither order of the two results is a part of it. -/
theorem reads_overlap : ∃ h σ a b, Lts.Path step quiet h σ ∧ results h = [(10, a), (200, b)] ∧
    ¬ a ++ b <+: text (committed h) ∧ ¬ b ++ a <+: text (committed h) := by
  have hrun : ∃ h σ, Lts.Path step quiet h σ ∧ (results h = [(10, [120, 10]), (200, List.replicate 128 97 ++ [121, 10])] ∧
      text (committed h) = List.replicate 128 97 ++ [120, 10, 121, 10]) :=
    Lts.exists_path_of_replay (fun h _ => results h = [(10, [120, 10]), (200, List.replicate 128 97 ++ [121, 10])] ∧
      text (committed h) = List.replicate 128 97 ++ [120, 10, 121, 10]) overlapping (by decide +kernel)
  obtain ⟨h, σ, hp, hresults, htext⟩ := hrun
  refine ⟨h, σ, _, _, hp, hresults, ?_, ?_⟩
  · rw [htext]
    decide
  · rw [htext]
    decide

end Xv6Mlfq.Console
