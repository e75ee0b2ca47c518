import Xv6Mlfq.Vm.Copy

/-!
# Xv6Mlfq.Vm.Fetch — strings of the user

`copyinstr` of `vm.c`, and `fetchstr` and `fetchaddr` of `syscall.c`.

* `copyinstr_eval`: it copies up to the first NUL, up to its bound or up to a page that it cannot get, whichever comes first.
* `copyinstr_exact`: when it returns 0, what it has copied, and that nothing after the first NUL matters.
-/

namespace Xv6Mlfq.Vm

open Bytes Function Exec

variable {σ τ : Phys} {root srcva k n u max : ℕ} {bs : List UInt8} {ok : Bool}

/-! ## The code of `syscall.c` -/

/-- `strlen` of a buffer that holds a NUL -/
def strlen : List UInt8 → ℕ
  | [] => 0
  | b :: s => if b = 0 then 0 else strlen s + 1

/-- `fetchstr`: what it returns, and what it has copied to `buf` -/
def fetchstr (pagetable addr max : ℕ) : Code (ℤ × List UInt8) := do
  let (ok, buf) ← copyinstr pagetable addr max
  if ok then pure (strlen buf, buf) else pure (-1, buf)

/-- `fetchaddr`: the word at `addr`, if all of it is below `sz` and can be read -/
def fetchaddr (pagetable sz addr : ℕ) : Code (Option ℕ) := do
  if sz ≤ addr ∨ sz < (addr + 8) % 2 ^ 64 then pure none
  else do
    let (ok, bs) ← copyin pagetable addr 8
    if ok then pure (some (ofLe bs)) else pure none

/-! ## What `copyinstr` can get at -/

/-- `walkaddr` finds virtual page `u`. -/
def Phys.Gets (σ : Phys) (root u : ℕ) : Prop := σ.Reads root u ∧ σ.frame root u ≠ 0

theorem ends_walkaddr_gets {Q : ℕ → Phys → Prop} (hyes : σ.Gets root u → Q (σ.frame root u) σ) (hno : ¬ σ.Gets root u → Q 0 σ) :
    Ends (walkaddr root (u * PGSIZE)) σ Q := by
  refine ends_walkaddr (fun hr => ?_) fun hr => hno fun hg => hr hg.1
  by_cases hz : σ.frame root u = 0
  · rw [hz]
    exact hno fun hg => hg.2 hz
  · exact hyes ⟨hr, hz⟩

/-- `copyinstr` has found `n` bytes that are not NUL, and then stopped. -/
structure Scanned (σ : Phys) (root srcva max : ℕ) (ok : Bool) (bs : List UInt8) (n : ℕ) : Prop where
  le : n ≤ max
  good : ∀ i < n, σ.Gets root ((srcva + i) / PGSIZE)
  nonzero : ∀ i < n, σ.user root (srcva + i) ≠ 0
  found : ok = true → n < max ∧ σ.Gets root ((srcva + n) / PGSIZE) ∧ σ.user root (srcva + n) = 0 ∧
    bs = slice (σ.user root) srcva (n + 1)
  stopped : ok = false → (n = max ∨ ¬ σ.Gets root ((srcva + n) / PGSIZE)) ∧ bs = slice (σ.user root) srcva n

theorem scanString_spec (data : Frame) (off n : ℕ) : ∃ k ≤ n, (∀ i < k, data (off + i) ≠ 0) ∧
    (k < n ∧ data (off + k) = 0 ∧ scanString data off n = (slice data off (k + 1), true) ∨
      k = n ∧ scanString data off n = (slice data off n, false)) := by
  induction n generalizing off with
  | zero => exact ⟨0, le_rfl, nofun, .inr ⟨rfl, rfl⟩⟩
  | succ n ih =>
    by_cases hz : data off = 0
    · refine ⟨0, Nat.zero_le _, nofun, .inl ⟨Nat.succ_pos n, hz, ?_⟩⟩
      rw [scanString, if_pos hz, slice, List.range_one, List.map_singleton, Nat.add_zero, hz]
    · obtain ⟨k, hk, hnz, hcase⟩ := ih (off + 1)
      have hcons : ∀ m, slice data off (m + 1) = data off :: slice data (off + 1) m := by
        intro m
        rw [Nat.add_comm m 1, slice_add]
        rfl
      refine ⟨k + 1, by omega, fun i hi => ?_, ?_⟩
      · cases i with
        | zero => exact hz
        | succ i =>
          rw [← Nat.succ_add_eq_add_succ]
          exact hnz i (by omega)
      · rw [scanString, if_neg hz]
        rcases hcase with ⟨hlt, hzero, he⟩ | ⟨rfl, he⟩
        · refine .inl ⟨by omega, ?_, ?_⟩
          · rwa [← Nat.succ_add_eq_add_succ]
          · rw [he, hcons (k + 1)]
        · refine .inr ⟨rfl, ?_⟩
          rw [he, hcons k]

/-- A page has been copied without a NUL, and then the rest from the next page on. -/
theorem Scanned.next {m : ℕ} (hm : m = min (PGSIZE - srcva % PGSIZE) max) (hg : σ.Gets root (srcva / PGSIZE))
    (hnz : ∀ i < m, σ.user root (srcva + i) ≠ 0) (h : Scanned σ root ((srcva / PGSIZE + 1) * PGSIZE) (max - m) ok bs n) :
    Scanned σ root srcva max ok (slice (σ.user root) srcva m ++ bs) (m + n) := by
  obtain ⟨hmle, -⟩ := chunk_le hm
  have hle := h.le
  -- the rest is empty when the bound is reached, and starts where the page ends otherwise
  by_cases hlt : m < max
  · rw [chunk_next hm hlt] at h
    refine ⟨by omega, fun i hi => ?_, fun i hi => ?_, fun hok => ?_, fun hok => ?_⟩
    · rcases lt_or_ge i m with him | him
      · rw [chunk_page hm him]
        exact hg
      · obtain ⟨j, rfl⟩ := Nat.exists_eq_add_of_le him
        rw [← Nat.add_assoc]
        exact h.good j (by omega)
    · rcases lt_or_ge i m with him | him
      · exact hnz i him
      · obtain ⟨j, rfl⟩ := Nat.exists_eq_add_of_le him
        rw [← Nat.add_assoc]
        exact h.nonzero j (by omega)
    · obtain ⟨hn, hget, hzero, hbs⟩ := h.found hok
      rw [← Nat.add_assoc, Nat.add_assoc m, slice_add]
      exact ⟨by omega, hget, hzero, by rw [hbs]⟩
    · obtain ⟨hstop, hbs⟩ := h.stopped hok
      rw [← Nat.add_assoc, slice_add]
      refine ⟨?_, by rw [hbs]⟩
      rcases hstop with hmax | hbad
      · exact .inl (by omega)
      · exact .inr hbad
  · obtain rfl : m = max := by omega
    obtain rfl : n = 0 := by omega
    refine ⟨le_rfl, fun i hi => ?_, hnz, fun hok => ?_, fun hok => ⟨.inl rfl, ?_⟩⟩
    · rw [chunk_page hm hi]
      exact hg
    · exact absurd (h.found hok).1 (by omega)
    · rw [(h.stopped hok).2]
      exact List.append_nil _

/-- Nothing is read where there is no room, or no page. -/
theorem Scanned.stop (h : 0 = max ∨ ¬ σ.Gets root (srcva / PGSIZE)) : Scanned σ root srcva max false [] 0 where
  le := Nat.zero_le max
  good := by simp
  nonzero := by simp
  found := by simp
  stopped := fun _ => ⟨h, rfl⟩

theorem ends_copyinstrLoop {fuel : ℕ} (hfuel : max ≤ fuel) :
    Ends (copyinstrLoop root fuel srcva max) σ fun r σ' => σ' = σ ∧ ∃ n, Scanned σ root srcva max r.1 r.2 n := by
  induction fuel generalizing srcva max with
  | zero => exact ends_pure.mpr ⟨rfl, 0, .stop (.inl (by omega))⟩
  | succ fuel ih =>
    rw [copyinstrLoop]
    by_cases hmax : max = 0
    · rw [if_pos hmax, ends_pure]
      exact ⟨rfl, 0, .stop (.inl hmax.symm)⟩
    · rw [if_neg hmax]
      dsimp only
      rw [roundDown_eq, sub_roundDown, ← Nat.succ_mul, ends_bind]
      refine ends_walkaddr_gets (fun hg => ?_) fun hg => ?_
      · obtain ⟨m, hm⟩ : ∃ m, m = min (PGSIZE - srcva % PGSIZE) max := ⟨_, rfl⟩
        obtain ⟨hmle, -⟩ := chunk_le hm
        have hmpos := chunk_pos hm hmax
        rw [if_neg hg.2, ends_bind, ends_get, ← hm]
        obtain ⟨k, hk, hnz, hcase⟩ := scanString_spec (σ.mem (σ.frame root (srcva / PGSIZE))) (srcva % PGSIZE) m
        -- the bytes of the page are the user's
        have huser : ∀ i < m, σ.mem (σ.frame root (srcva / PGSIZE)) (srcva % PGSIZE + i) = σ.user root (srcva + i) := by
          intro i hi
          have hmod : (srcva + i) % PGSIZE = srcva % PGSIZE + i := by
            simp only [PGSIZE] at *
            omega
          rw [Phys.user, chunk_page hm hi, hmod]
        have hnz' : ∀ i < k, σ.user root (srcva + i) ≠ 0 := by
          intro i hi
          rw [← huser i (by omega)]
          exact hnz i hi
        rcases hcase with ⟨hlt, hzero, he⟩ | ⟨rfl, he⟩
        · rw [he]
          dsimp only
          rw [if_pos rfl, ends_pure]
          refine ⟨rfl, k, by omega, fun i hi => ?_, hnz', fun _ => ⟨by omega, ?_, ?_, ?_⟩, by simp⟩
          · rw [chunk_page hm (by omega)]
            exact hg
          · rw [chunk_page hm hlt]
            exact hg
          · rw [← huser k hlt, hzero]
          · exact slice_congr fun i hi => huser i (by omega)
        · rw [he]
          dsimp only
          rw [if_neg (by decide), ends_bind]
          refine (ih (by omega)).mono fun r σ' hend => ?_
          obtain ⟨rfl, n, hn⟩ := hend
          rw [ends_pure, slice_frame hm]
          exact ⟨rfl, k + n, hn.next hm hg hnz'⟩
      · rw [if_pos rfl, ends_pure]
        exact ⟨rfl, 0, .stop (.inr hg)⟩

/-- It always returns, and changes nothing. -/
theorem copyinstr_eval (σ : Phys) (root srcva max : ℕ) :
    ∃ ok bs n, copyinstr root srcva max σ = .ok ((ok, bs), σ) ∧ Scanned σ root srcva max ok bs n := by
  have hend : Ends (copyinstr root srcva max) σ fun r σ' => σ' = σ ∧ ∃ n, Scanned σ root srcva max r.1 r.2 n :=
    ends_copyinstrLoop le_rfl
  obtain ⟨⟨ok, bs⟩, σ', he, rfl, n, hn⟩ := hend.eval
  exact ⟨ok, bs, n, he, hn⟩

/-! ## What it returns, and what it has copied -/

/-- The first NUL from `srcva` on is at `srcva + k`, and the user can read everything up to there. -/
structure FirstNul (σ : Phys) (root srcva k : ℕ) : Prop where
  readable : ∀ i ≤ k, σ.Readable root (srcva + i)
  zero : σ.user root (srcva + k) = 0
  first : ∀ i < k, σ.user root (srcva + i) ≠ 0

theorem FirstNul.unique {j : ℕ} (h : FirstNul σ root srcva k) (h' : FirstNul σ root srcva j) : k = j := by
  rcases lt_trichotomy k j with hlt | rfl | hlt
  · exact absurd h.zero (h'.first k hlt)
  · rfl
  · exact absurd h'.zero (h.first j hlt)

theorem Scanned.firstNul (h : Scanned σ root srcva max true bs n) : n < max ∧ FirstNul σ root srcva n := by
  obtain ⟨hlt, hget, hzero, -⟩ := h.found rfl
  refine ⟨hlt, fun i hi => ?_, hzero, h.nonzero⟩
  rcases Nat.lt_or_eq_of_le hi with hi | rfl
  · exact reads_iff.mp (h.good i hi).1
  · exact reads_iff.mp hget.1

/-- With a NUL that it can get at, what has been copied depends on nothing after it. -/
theorem Scanned.of_firstNul (h : Scanned σ root srcva max ok bs n) (hget : ∀ i ≤ k, σ.Gets root ((srcva + i) / PGSIZE))
    (hk : FirstNul σ root srcva k) : ok = decide (k < max) ∧ bs = slice (σ.user root) srcva (min (k + 1) max) := by
  have hle := h.le
  cases ok with
  | true =>
    obtain ⟨hlt, hn⟩ := h.firstNul
    obtain rfl := hk.unique hn
    refine ⟨(decide_eq_true hlt).symm, ?_⟩
    rw [(h.found rfl).2.2.2, Nat.min_eq_left hlt]
  | false =>
    obtain ⟨hstop, hbs⟩ := h.stopped rfl
    -- the NUL is not among the bytes copied, and not in a page that cannot be got
    have hnk : n ≤ k := by
      by_contra hlt
      exact h.nonzero k (by omega) hk.zero
    have hmax : n = max := by
      rcases hstop with hmax | hbad
      · exact hmax
      · exact absurd (hget n hnk) hbad
    refine ⟨(decide_eq_false (by omega)).symm, ?_⟩
    rw [hbs, Nat.min_eq_right (by omega), hmax]

theorem strlen_slice {data : ℕ → UInt8} (hnz : ∀ i < k, data (srcva + i) ≠ 0) (hz : data (srcva + k) = 0) :
    strlen (slice data srcva (k + 1)) = k := by
  induction k generalizing srcva with
  | zero =>
    rw [slice, List.range_one, List.map_singleton, strlen, if_pos hz]
  | succ k ih =>
    have hcons : slice data srcva (k + 1 + 1) = data srcva :: slice data (srcva + 1) (k + 1) := by
      rw [Nat.add_comm (k + 1) 1, slice_add]
      rfl
    have hfirst : data srcva ≠ 0 := hnz 0 (Nat.succ_pos k)
    rw [hcons, strlen, if_neg hfirst, ih]
    · intro i hi
      rw [Nat.succ_add_eq_add_succ]
      exact hnz (i + 1) (by omega)
    · rwa [Nat.succ_add_eq_add_succ]

/-- `τ` has the pages from `lo` to `hi` that `σ` has, with the same bytes. -/
def SamePages (σ τ : Phys) (root lo hi : ℕ) : Prop :=
  ∀ u, lo ≤ u → u ≤ hi → τ.map root u = σ.map root u ∧ τ.mem (σ.frame root u) = σ.mem (σ.frame root u)

theorem SamePages.user (h : SamePages σ τ root (srcva / PGSIZE) ((srcva + k) / PGSIZE)) {i : ℕ} (hi : i ≤ k) :
    τ.map root ((srcva + i) / PGSIZE) = σ.map root ((srcva + i) / PGSIZE) ∧ τ.user root (srcva + i) = σ.user root (srcva + i) := by
  obtain ⟨hmap, hmem⟩ := h ((srcva + i) / PGSIZE) (Nat.div_le_div_right (by omega)) (Nat.div_le_div_right (by omega))
  refine ⟨hmap, ?_⟩
  rw [Phys.user, Phys.frame, hmap, ← Phys.frame, hmem, Phys.user]

theorem SamePages.firstNul (h : SamePages σ τ root (srcva / PGSIZE) ((srcva + k) / PGSIZE)) (hk : FirstNul σ root srcva k) :
    FirstNul τ root srcva k := by
  refine ⟨fun i hi => ?_, ?_, fun i hi => ?_⟩
  · rw [Phys.Readable, (h.user hi).1]
    exact hk.readable i hi
  · rw [(h.user le_rfl).2, hk.zero]
  · rw [(h.user hi.le).2]
    exact hk.first i hi

/-- **User strings are fetched safely.**  `copyinstr` returns 0 if and only if there is a NUL less than `max` bytes on that the user
can read up to, and has then copied everything up to the first one.  It never writes more than `max` bytes, and what it does
depends on no page after the one with the first NUL.  `fetchstr` returns how far the NUL is, or -1. -/
theorem copyinstr_exact (hpos : ∀ u, σ.Reads root u → σ.frame root u ≠ 0) (srcva max : ℕ) :
    ∃ ok bs, copyinstr root srcva max σ = .ok ((ok, bs), σ) ∧ (ok = true ↔ ∃ k < max, FirstNul σ root srcva k) ∧
      (∀ k < max, FirstNul σ root srcva k → bs = slice (σ.user root) srcva (k + 1)) ∧ bs.length ≤ max ∧
      (∀ k τ, FirstNul σ root srcva k → SamePages σ τ root (srcva / PGSIZE) ((srcva + k) / PGSIZE) →
        copyinstr root srcva max τ = .ok ((ok, bs), τ)) ∧
      ∃ r, fetchstr root srcva max σ = .ok ((r, bs), σ) ∧ (r = -1 ∧ ok = false ∨ ∃ k < max, FirstNul σ root srcva k ∧ r = k) := by
  have hgets : ∀ {k}, FirstNul σ root srcva k → ∀ i ≤ k, σ.Gets root ((srcva + i) / PGSIZE) := by
    intro k hk i hi
    have hr := reads_iff.mpr (hk.readable i hi)
    exact ⟨hr, hpos _ hr⟩
  obtain ⟨ok, bs, n, he, hn⟩ := copyinstr_eval σ root srcva max
  have hle := hn.le
  refine ⟨ok, bs, he, ⟨?_, ?_⟩, fun k hk hnul => ?_, ?_, fun k τ hnul hsame => ?_, ?_⟩
  · rintro rfl
    exact ⟨n, hn.firstNul⟩
  · rintro ⟨k, hk, hnul⟩
    rw [(hn.of_firstNul (hgets hnul) hnul).1]
    exact decide_eq_true hk
  · rw [(hn.of_firstNul (hgets hnul) hnul).2, Nat.min_eq_left hk]
  · cases ok with
    | true =>
      rw [(hn.found rfl).2.2.2, length_slice]
      exact (hn.found rfl).1
    | false =>
      rw [(hn.stopped rfl).2, length_slice]
      exact hle
  · obtain ⟨ok', bs', m, he', hm⟩ := copyinstr_eval τ root srcva max
    have hgets' : ∀ i ≤ k, τ.Gets root ((srcva + i) / PGSIZE) := by
      intro i hi
      rw [Phys.Gets, Phys.Reads, Phys.frame, (hsame.user hi).1]
      exact hgets hnul i hi
    obtain ⟨hok, hbs⟩ := hn.of_firstNul (hgets hnul) hnul
    obtain ⟨hok', hbs'⟩ := hm.of_firstNul hgets' (hsame.firstNul hnul)
    rw [he', hok, hok', hbs, hbs']
    rw [slice_congr fun i hi => (hsame.user (by omega)).2]
  · rw [fetchstr, bind_ok he]
    cases ok with
    | true =>
      obtain ⟨hlt, hnul⟩ := hn.firstNul
      refine ⟨n, ?_, .inr ⟨n, hlt, hnul, rfl⟩⟩
      have hlen : strlen bs = n := by
        rw [(hn.found rfl).2.2.2]
        exact strlen_slice hnul.first hnul.zero
      dsimp only
      rw [if_pos rfl, hlen]
      rfl
    | false => exact ⟨-1, rfl, .inl ⟨rfl, rfl⟩⟩

/-- A page with a string of two letters, `0x80020`, besides the free pages. -/
def stringPage : Phys :=
  { fourPages with mem := fun p off => if p = 0x80020 ∧ off = 0 then 115 else if p = 0x80020 ∧ off = 1 then 104 else 0 }

/-- The string is fetched with its NUL, and has length 2. -/
theorem copyinstr_exact_stringPage : ∃ σ, (∀ u, σ.Reads 0x80010 u → σ.frame 0x80010 u ≠ 0) ∧
    copyinstr 0x80010 PGSIZE 8 σ = .ok ((true, [115, 104, 0]), σ) ∧ fetchstr 0x80010 PGSIZE 8 σ = .ok ((2, [115, 104, 0]), σ) ∧
    FirstNul σ 0x80010 PGSIZE 2 := by
  have hrun : Ends (userTable [(1, 0x80020)]) stringPage fun r σ => r = some 0x80010 ∧
      Ends (fetchstr 0x80010 PGSIZE 8) σ fun r _ => r = (2, [115, 104, 0]) := by
    decide +kernel
  obtain ⟨r, σ, he, rfl, hfetch⟩ := hrun.eval
  have htable := (ends_userTable (σ := stringPage) (by decide) (by decide) rfl).of_eval he 0x80010 rfl
  have hpos : ∀ u, σ.Reads 0x80010 u → σ.frame 0x80010 u ≠ 0 := by
    intro u hr
    obtain ⟨-, hf⟩ : u = 1 ∧ σ.frame 0x80010 u = 0x80020 := by simpa using htable.reads u hr
    rw [hf]
    decide
  obtain ⟨ok, bs, hcopy, hok, -, -, -, r, hr, hcase⟩ := copyinstr_exact hpos PGSIZE 8
  have hval := hfetch.of_eval hr
  cases hval
  rcases hcase with ⟨hneg, -⟩ | ⟨k, hk, hnul, hkr⟩
  · exact absurd hneg (by decide)
  · obtain rfl : k = 2 := by omega
    rw [hok.mpr ⟨2, hk, hnul⟩] at hcopy
    exact ⟨σ, hpos, hcopy, hr, hnul⟩

/-- A user's page at physical address 0: `walkaddr` returns 0 for it, as for a page that is not there. -/
theorem copyinstr_frame_zero : ∃ σ, FirstNul σ 0x80010 PGSIZE 0 ∧
    Ends (copyinstr 0x80010 PGSIZE 1) σ fun r _ => r.1 = false := by
  have hrun : Ends (userTable [(1, 0)]) fourPages fun r σ => r = some 0x80010 ∧ σ.mem 0 0 = 0 ∧
      Ends (copyinstr 0x80010 PGSIZE 1) σ fun r _ => r.1 = false := by
    decide +kernel
  obtain ⟨r, σ, he, rfl, hzero, hfail⟩ := hrun.eval
  have htable := (ends_userTable (by decide) (by decide) rfl).of_eval he 0x80010 rfl
  obtain ⟨hpage1, hframe⟩ := htable.writes (1, 0) (by simp)
  have hpage : (PGSIZE + 0) / PGSIZE = 1 := by decide
  refine ⟨σ, ⟨fun i hi => ?_, ?_, nofun⟩, hfail⟩
  · obtain rfl : i = 0 := by omega
    rw [← reads_iff, hpage]
    exact hpage1.1
  · rw [Phys.user, hpage, hframe]
    exact hzero

end Xv6Mlfq.Vm
