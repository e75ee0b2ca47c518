import Xv6Mlfq.Vm.Map

/-!
# Xv6Mlfq.Vm.Copy — copies between the kernel and a user

`copyout` and `copyin` of `vm.c`.  User memory is what the page table makes of physical memory (`Phys.user`).

* `UserPages`: different pages of the user are at different places, none of them 0 and none of them a page of the page table.
* `ends_copyout`: `copyout` writes up to the first page that the user cannot write to.
* `ends_copyin`: `copyin` reads up to the first page that the user cannot read.
* `copies_exact`: what they return, and what they leave.
-/

namespace Xv6Mlfq.Vm

open Bytes Function Exec

variable {σ σ' σ'' : Phys} {root va dstva srcva len u p a m n fuel : ℕ} {bs cs src : List UInt8} {ok : Bool}

/-! ## User memory -/

/-- Virtual page `u` can be read by the user. -/
def Phys.Reads (σ : Phys) (root u : ℕ) : Prop := u < MAXVA / PGSIZE ∧ σ.map root u &&& PTE_V ≠ 0 ∧ σ.map root u &&& PTE_U ≠ 0

/-- It can be written, too. -/
def Phys.Writes (σ : Phys) (root u : ℕ) : Prop := σ.Reads root u ∧ σ.map root u &&& PTE_W ≠ 0

/-- Where virtual page `u` is. -/
def Phys.frame (σ : Phys) (root u : ℕ) : ℕ := PTE2PA (σ.map root u)

/-- The bytes of the user. -/
def Phys.user (σ : Phys) (root va : ℕ) : UInt8 := σ.mem (σ.frame root (va / PGSIZE)) (va % PGSIZE)

structure UserPages (σ : Phys) (root : ℕ) : Prop where
  inj : ∀ u u', σ.Reads root u → σ.Reads root u' → σ.frame root u = σ.frame root u' → u = u'
  pos : ∀ u, σ.Reads root u → σ.frame root u ≠ 0
  apart : ∀ u, σ.Reads root u → σ.frame root u ∉ σ.pages 2 root

/-- The bytes `bs` have been written at address `a` of the user. -/
structure Stored (σ σ' : Phys) (root a : ℕ) (bs : List UInt8) : Prop where
  map : σ'.map root = σ.map root
  pages : σ'.pages 2 root = σ.pages 2 root
  free : σ'.free = σ.free
  user : ∀ va, σ.Reads root (va / PGSIZE) → σ'.user root va = splice (σ.user root) a bs va
  mem : ∀ p, (∀ u, σ.Writes root u → σ.frame root u ≠ p) → σ'.mem p = σ.mem p

theorem Stored.nil : Stored σ σ root va [] := ⟨rfl, rfl, rfl, fun _ _ => by rw [splice_nil], fun _ _ => rfl⟩

theorem Stored.reads (h : Stored σ σ' root va bs) : σ'.Reads root u ↔ σ.Reads root u := by
  rw [Phys.Reads, h.map, Phys.Reads]

theorem Stored.writes (h : Stored σ σ' root va bs) : σ'.Writes root u ↔ σ.Writes root u := by
  rw [Phys.Writes, h.reads, h.map, Phys.Writes]

theorem Stored.frame (h : Stored σ σ' root va bs) : σ'.frame root u = σ.frame root u := by
  rw [Phys.frame, h.map, Phys.frame]

theorem Stored.userPages (h : Stored σ σ' root va bs) (hu : UserPages σ root) : UserPages σ' root where
  inj := by
    intro u u' hr hr' he
    rw [h.frame, h.frame] at he
    exact hu.inj u u' (h.reads.mp hr) (h.reads.mp hr') he
  pos := by
    intro u hr
    rw [h.frame]
    exact hu.pos u (h.reads.mp hr)
  apart := by
    intro u hr
    rw [h.frame, h.pages]
    exact hu.apart u (h.reads.mp hr)

theorem Stored.nil_at {b : ℕ} (h : Stored σ σ' root a []) : Stored σ σ' root b [] where
  map := h.map
  pages := h.pages
  free := h.free
  user := by
    intro va ha
    rw [h.user va ha, splice_nil, splice_nil]
  mem := h.mem

theorem Stored.append (h : Stored σ σ' root va bs) (h' : Stored σ' σ'' root (va + bs.length) cs) :
    Stored σ σ'' root va (bs ++ cs) where
  map := h'.map.trans h.map
  pages := h'.pages.trans h.pages
  free := h'.free.trans h.free
  user := by
    intro a ha
    rw [h'.user a (h.reads.mpr ha), ← splice_append]
    by_cases hin : va + bs.length ≤ a ∧ a < va + bs.length + cs.length
    · rw [splice, splice, if_pos hin, if_pos hin]
    · rw [splice_outside (by omega), splice_outside (by omega), h.user a ha]
  mem := by
    intro p hp
    rw [h'.mem p fun u hw => by rw [h.frame]; exact hp u (h.writes.mp hw), h.mem p hp]

/-- Bytes are written to a page of the user. -/
theorem Stored.page {off : ℕ} (hu : UserPages σ root) (hw : σ.Writes root u) (hle : off + bs.length ≤ PGSIZE)
    (hσ : σ' = σ.setPage (σ.frame root u) (splice (σ.mem (σ.frame root u)) off bs)) :
    Stored σ σ' root (u * PGSIZE + off) bs := by
  have hagree : ∀ q ∈ σ.pages 2 root, ∀ i < 512, σ'.pte q i = σ.pte q i := by
    intro q hq i _
    rw [hσ]
    refine pte_setPage_of_ne ?_
    rintro rfl
    exact hu.apart u hw.1 hq
  have hmap : σ'.map root = σ.map root := map_congr fun v => Radix.word_of_agree (by decide) hagree
  have hframe : ∀ v, σ'.frame root v = σ.frame root v := by
    intro v
    rw [Phys.frame, hmap, Phys.frame]
  refine ⟨hmap, (Radix.Same.of_agree (by decide) hagree).pages, hσ ▸ rfl, fun a ha => ?_, fun p hp => ?_⟩
  · obtain ⟨v, hv⟩ : ∃ v, v = a / PGSIZE := ⟨_, rfl⟩
    obtain ⟨r, hr⟩ : ∃ r, r = a % PGSIZE := ⟨_, rfl⟩
    have ha' : a = v * PGSIZE + r := by rw [hv, hr, Nat.mul_comm, Nat.div_add_mod]
    have hlt : r < PGSIZE := hr ▸ Nat.mod_lt _ (by decide)
    have hold : σ.user root a = σ.mem (σ.frame root v) r := by rw [Phys.user, ← hv, ← hr]
    rw [← hv] at ha
    rw [Phys.user, ← hv, ← hr, hframe, hσ]
    by_cases hvu : v = u
    · subst hvu
      rw [mem_setPage_self, ha']
      by_cases hin : off ≤ r ∧ r < off + bs.length
      · obtain ⟨k, rfl⟩ := Nat.exists_eq_add_of_le hin.1
        rw [← Nat.add_assoc, splice_inside (by omega), splice_inside (by omega)]
      · rw [splice_outside (by omega), splice_outside (by omega), ← ha', hold]
    · have hne : σ.frame root v ≠ σ.frame root u := fun he => hvu (hu.inj _ _ ha hw.1 he)
      rw [mem_setPage_of_ne hne, splice_outside, hold]
      -- `a` is in another page
      have hpages : v + 1 ≤ u ∨ u + 1 ≤ v := by omega
      rcases hpages with hlow | hhigh
      · have := Nat.mul_le_mul_right PGSIZE hlow
        rw [Nat.add_mul] at this
        omega
      · have := Nat.mul_le_mul_right PGSIZE hhigh
        rw [Nat.add_mul] at this
        omega
  · rw [hσ]
    exact mem_setPage_of_ne fun he => hp u hw he.symm

/-! ## Page by page -/

section

variable (hm : m = min (PGSIZE - a % PGSIZE) len)
include hm

/-- What the loops take from one page. -/
theorem chunk_page {i : ℕ} (hi : i < m) : (a + i) / PGSIZE = a / PGSIZE := by
  simp only [PGSIZE] at *
  omega

theorem chunk_next (hlt : m < len) : (a / PGSIZE + 1) * PGSIZE = a + m := by
  simp only [PGSIZE] at *
  omega

theorem chunk_pos (hlen : len ≠ 0) : 0 < m := by
  simp only [PGSIZE] at *
  omega

theorem chunk_le : m ≤ len ∧ a % PGSIZE + m ≤ PGSIZE := by
  simp only [PGSIZE] at *
  omega

end

theorem roundDown_eq (a : ℕ) : PGROUNDDOWN a = a / PGSIZE * PGSIZE := rfl

theorem sub_roundDown (a : ℕ) : a - a / PGSIZE * PGSIZE = a % PGSIZE := by
  rw [Nat.mul_comm, Nat.mod_eq_sub_mul_div]

theorem page_lt_iff (a : ℕ) : a / PGSIZE * PGSIZE < MAXVA ↔ a / PGSIZE < MAXVA / PGSIZE := by
  simp only [PGSIZE, MAXVA]
  omega

/-! ## `copyout` -/

/-- What `walk` finds is the entry of the map. -/
theorem ends_entry {Q : Option (ℕ × ℕ) → Phys → Prop} (hu : u < MAXVA / PGSIZE) (hnone : σ.map root u = 0 → Q none σ)
    (hsome : ∀ q i, σ.pte q i = σ.map root u → Q (some (q, i)) σ) : Ends (walk root (u * PGSIZE) false) σ Q := by
  have hmax : MAXVA / PGSIZE * PGSIZE = MAXVA := by decide
  have hlt : u * PGSIZE < MAXVA := hmax ▸ Nat.mul_lt_mul_of_pos_right hu (by decide)
  have hu' : u < 2 ^ 27 := Nat.lt_trans hu (by decide)
  rw [ends_walk hlt, Nat.mul_div_cancel _ (by decide)]
  cases hs : σ.slot 2 root u with
  | none => exact hnone (map_of_none hs)
  | some s => exact hsome s.1 s.2 (map_of_slot hu' hs).symm

/-- `copyout` has written the first `n` bytes, and all if it returns 0; what comes after them is in a page that cannot be written. -/
structure Written (σ σ' : Phys) (root dstva : ℕ) (src : List UInt8) (ok : Bool) (n : ℕ) : Prop where
  le : n ≤ src.length
  all : ok = true ↔ n = src.length
  good : ∀ i < n, σ.Writes root ((dstva + i) / PGSIZE)
  bad : n < src.length → ¬ σ.Writes root ((dstva + n) / PGSIZE)
  stored : Stored σ σ' root dstva (src.take n)

theorem Written.none (hsrc : src.length ≠ 0) (hbad : ¬ σ.Writes root (dstva / PGSIZE)) : Written σ σ root dstva src false 0 where
  le := Nat.zero_le _
  all := by simpa using hsrc.symm
  good := nofun
  bad := fun _ => hbad
  stored := Stored.nil

theorem Written.done (hsrc : src.length = 0) : Written σ σ root dstva src true 0 where
  le := Nat.zero_le _
  all := by simpa using hsrc.symm
  good := nofun
  bad := fun h => absurd h (by omega)
  stored := Stored.nil

/-- A page has been written, and then the rest from the next page on. -/
theorem Written.next {τ : Phys} (hm : m = min (PGSIZE - dstva % PGSIZE) src.length)
    (hw : σ.Writes root (dstva / PGSIZE)) (hs : Stored σ τ root dstva (src.take m))
    (h : Written τ σ' root ((dstva / PGSIZE + 1) * PGSIZE) (src.drop m) ok n) : Written σ σ' root dstva src ok (m + n) := by
  obtain ⟨hmle, -⟩ := chunk_le hm
  have hle := h.le
  have hbad := h.bad
  have hall := h.all
  rw [List.length_drop] at hle hbad hall
  refine ⟨by omega, hall.trans (by omega), fun i hi => ?_, fun hlt => ?_, ?_⟩
  · rcases lt_or_ge i m with him | him
    · rw [chunk_page hm him]
      exact hw
    · obtain ⟨j, rfl⟩ := Nat.exists_eq_add_of_le him
      have hgood := h.good j (by omega)
      rw [chunk_next hm (by omega), Nat.add_assoc] at hgood
      exact hs.writes.mp hgood
  · rw [chunk_next hm (by omega), Nat.add_assoc] at hbad
    exact fun hgood => hbad (by omega) (hs.writes.mpr hgood)
  · rw [List.take_add]
    refine hs.append ?_
    have hlen : (src.take m).length = m := by rw [List.length_take]; omega
    rw [hlen]
    rcases Nat.eq_zero_or_pos n with rfl | hn
    · exact h.stored.nil_at
    · rw [← chunk_next hm (by omega)]
      exact h.stored

theorem ends_copyoutLoop (hu : UserPages σ root) (hfuel : src.length ≤ fuel) :
    Ends (copyoutLoop root fuel dstva src) σ fun ok σ' => ∃ n, Written σ σ' root dstva src ok n := by
  induction fuel generalizing dstva src σ with
  | zero => exact ends_pure.mpr ⟨0, Written.done (by omega)⟩
  | succ fuel ih =>
    rw [copyoutLoop]
    by_cases hsrc : src.length = 0
    · rw [if_pos hsrc, ends_pure]
      exact ⟨0, Written.done hsrc⟩
    · rw [if_neg hsrc]
      dsimp only
      rw [roundDown_eq, sub_roundDown, ← Nat.succ_mul]
      by_cases hmax : MAXVA ≤ dstva / PGSIZE * PGSIZE
      · rw [if_pos hmax, ends_pure]
        exact ⟨0, Written.none hsrc fun hw => absurd ((page_lt_iff dstva).mpr hw.1.1) (by omega)⟩
      · have hlt : dstva / PGSIZE < MAXVA / PGSIZE := (page_lt_iff dstva).mp (by omega)
        rw [if_neg hmax, ends_bind]
        refine ends_entry hlt (fun hzero => ?_) fun q i hpte => ?_
        · exact ends_pure.mpr ⟨0, Written.none hsrc fun hw => hw.1.2.1 (by rw [hzero]; rfl)⟩
        · dsimp only
          rw [ends_bind, ends_get, hpte]
          by_cases hbad : σ.map root (dstva / PGSIZE) &&& PTE_V = 0 ∨ σ.map root (dstva / PGSIZE) &&& PTE_U = 0 ∨
              σ.map root (dstva / PGSIZE) &&& PTE_W = 0
          · rw [if_pos hbad, ends_pure]
            refine ⟨0, Written.none hsrc fun hw => ?_⟩
            rcases hbad with h | h | h
            · exact hw.1.2.1 h
            · exact hw.1.2.2 h
            · exact hw.2 h
          · have hw : σ.Writes root (dstva / PGSIZE) :=
              ⟨⟨hlt, fun h => hbad (.inl h), fun h => hbad (.inr (.inl h))⟩, fun h => hbad (.inr (.inr h))⟩
            obtain ⟨m, hm⟩ : ∃ m, m = min (PGSIZE - dstva % PGSIZE) src.length := ⟨_, rfl⟩
            obtain ⟨hmle, hmpage⟩ := chunk_le hm
            have hmpos := chunk_pos hm hsrc
            rw [if_neg hbad, ends_bind, ends_store, ← hm]
            have hlen : dstva % PGSIZE + (src.take m).length ≤ PGSIZE := by
              rw [List.length_take]
              omega
            have hs := Stored.page hu hw hlen rfl
            rw [Nat.div_add_mod'] at hs
            refine (ih (hs.userPages hu) (by rw [List.length_drop]; omega)).mono fun ok σ' hend => ?_
            obtain ⟨n, hn⟩ := hend
            exact ⟨m + n, hn.next hm hw hs⟩

theorem ends_copyout (hu : UserPages σ root) :
    Ends (copyout root dstva src) σ fun ok σ' => ∃ n, Written σ σ' root dstva src ok n := ends_copyoutLoop hu le_rfl

/-! ## `copyin` -/

theorem ends_walkaddr {Q : ℕ → Phys → Prop} (hyes : σ.Reads root u → Q (σ.frame root u) σ) (hno : ¬ σ.Reads root u → Q 0 σ) :
    Ends (walkaddr root (u * PGSIZE)) σ Q := by
  have hdiv : u * PGSIZE / PGSIZE = u := Nat.mul_div_cancel _ (by decide)
  have hiff := page_lt_iff (u * PGSIZE)
  rw [hdiv] at hiff
  rw [walkaddr]
  by_cases hmax : MAXVA ≤ u * PGSIZE
  · rw [if_pos hmax, ends_pure]
    exact hno fun hr => absurd (hiff.mpr hr.1) (by omega)
  · have hlt : u < MAXVA / PGSIZE := hiff.mp (by omega)
    rw [if_neg hmax, ends_bind]
    refine ends_entry hlt (fun hzero => ?_) fun q i hpte => ?_
    · exact ends_pure.mpr (hno fun hr => hr.2.1 (by rw [hzero]; rfl))
    · dsimp only
      rw [ends_bind, ends_get, hpte]
      by_cases hv : σ.map root u &&& PTE_V = 0
      · rw [if_pos hv, ends_pure]
        exact hno fun hr => hr.2.1 hv
      · rw [if_neg hv]
        by_cases hU : σ.map root u &&& PTE_U = 0
        · rw [if_pos hU, ends_pure]
          exact hno fun hr => hr.2.2 hU
        · rw [if_neg hU, ends_pure]
          exact hyes ⟨hlt, hv, hU⟩

/-- The bytes of a page of the user. -/
theorem slice_frame (hm : m = min (PGSIZE - a % PGSIZE) len) :
    slice (σ.mem (σ.frame root (a / PGSIZE))) (a % PGSIZE) m = slice (σ.user root) a m := by
  refine slice_congr fun i hi => ?_
  have hmod : (a + i) % PGSIZE = a % PGSIZE + i := by
    simp only [PGSIZE] at *
    omega
  rw [Phys.user, chunk_page hm hi, hmod]

/-- `copyin` has read the first `n` bytes. -/
structure Fetched (σ : Phys) (root srcva len : ℕ) (ok : Bool) (bs : List UInt8) (n : ℕ) : Prop where
  le : n ≤ len
  all : ok = true ↔ n = len
  good : ∀ i < n, σ.Reads root ((srcva + i) / PGSIZE)
  bad : n < len → ¬ σ.Reads root ((srcva + n) / PGSIZE)
  bytes : bs = slice (σ.user root) srcva n

theorem ends_copyinLoop (hpos : ∀ u, σ.Reads root u → σ.frame root u ≠ 0) (hfuel : len ≤ fuel) :
    Ends (copyinLoop root fuel srcva len) σ fun r σ' => σ' = σ ∧ ∃ n, Fetched σ root srcva len r.1 r.2 n := by
  have hdone : ∀ {srcva len : ℕ}, len = 0 → Fetched σ root srcva len true [] 0 := by
    rintro srcva len rfl
    exact ⟨le_rfl, by simp, nofun, fun h => absurd h (by omega), rfl⟩
  induction fuel generalizing srcva len with
  | zero => exact ends_pure.mpr ⟨rfl, 0, hdone (by omega)⟩
  | succ fuel ih =>
    rw [copyinLoop]
    by_cases hlen : len = 0
    · rw [if_pos hlen, ends_pure]
      exact ⟨rfl, 0, hdone hlen⟩
    · rw [if_neg hlen]
      dsimp only
      rw [roundDown_eq, sub_roundDown, ← Nat.succ_mul, ends_bind]
      refine ends_walkaddr (fun hr => ?_) fun hr => ?_
      · obtain ⟨m, hm⟩ : ∃ m, m = min (PGSIZE - srcva % PGSIZE) len := ⟨_, rfl⟩
        obtain ⟨hmle, -⟩ := chunk_le hm
        have hmpos := chunk_pos hm hlen
        rw [if_neg (hpos _ hr), ends_bind, ends_get, ends_bind, ← hm]
        refine (ih (by omega)).mono fun r σ' hend => ?_
        obtain ⟨rfl, n, hn⟩ := hend
        have hle := hn.le
        refine ends_pure.mpr ⟨rfl, m + n, by omega, hn.all.trans (by omega), fun i hi => ?_, fun hlt => ?_, ?_⟩
        · rcases lt_or_ge i m with him | him
          · rw [chunk_page hm him]
            exact hr
          · obtain ⟨j, rfl⟩ := Nat.exists_eq_add_of_le him
            have hgood := hn.good j (by omega)
            rwa [chunk_next hm (by omega), Nat.add_assoc] at hgood
        · have hbad := hn.bad (by omega)
          rwa [chunk_next hm (by omega), Nat.add_assoc] at hbad
        · rw [slice_add, hn.bytes, slice_frame hm]
          rcases Nat.eq_zero_or_pos n with rfl | hnpos
          · rfl
          · rw [chunk_next hm (by omega)]
      · rw [if_pos rfl, ends_pure]
        exact ⟨rfl, 0, Nat.zero_le _, by simpa using Ne.symm hlen, nofun, fun _ => hr, rfl⟩

theorem ends_copyin (hpos : ∀ u, σ.Reads root u → σ.frame root u ≠ 0) :
    Ends (copyin root srcva len) σ fun r σ' => σ' = σ ∧ ∃ n, Fetched σ root srcva len r.1 r.2 n := ends_copyinLoop hpos le_rfl

/-! ## What they return, and what they leave -/

/-- The user's address `a` is in a page below `MAXVA` that is mapped for the user to read. -/
def Phys.Readable (σ : Phys) (root a : ℕ) : Prop :=
  a < MAXVA ∧ σ.map root (a / PGSIZE) &&& PTE_V ≠ 0 ∧ σ.map root (a / PGSIZE) &&& PTE_U ≠ 0

/-- It is mapped for the user to write, too. -/
def Phys.Writable (σ : Phys) (root a : ℕ) : Prop := σ.Readable root a ∧ σ.map root (a / PGSIZE) &&& PTE_W ≠ 0

theorem reads_iff : σ.Reads root (a / PGSIZE) ↔ σ.Readable root a := by
  have hlt : a / PGSIZE < MAXVA / PGSIZE ↔ a < MAXVA := by
    simp only [PGSIZE, MAXVA]
    omega
  rw [Phys.Reads, Phys.Readable, hlt]

theorem writes_iff : σ.Writes root (a / PGSIZE) ↔ σ.Writable root a := by
  rw [Phys.Writes, reads_iff, Phys.Writable]

theorem Written.all_iff (h : Written σ σ' root dstva src ok n) :
    ok = true ↔ ∀ a, dstva ≤ a → a < dstva + src.length → σ.Writable root a := by
  rw [h.all]
  constructor
  · rintro rfl a hl hlt
    obtain ⟨i, rfl⟩ := Nat.exists_eq_add_of_le hl
    exact writes_iff.mp (h.good i (by omega))
  · intro hall
    by_contra hne
    have hlt : n < src.length := lt_of_le_of_ne h.le hne
    exact h.bad hlt (writes_iff.mpr (hall (dstva + n) (by omega) (by omega)))

theorem Written.stored_all (h : Written σ σ' root dstva src true n) : Stored σ σ' root dstva src := by
  have hstored := h.stored
  rwa [h.all.mp rfl, List.take_length] at hstored

/-- Only bytes before the first page that cannot be written have changed. -/
theorem Written.changed (h : Written σ σ' root dstva src ok n) (ha : σ.Readable root a)
    (hne : σ'.user root a ≠ σ.user root a) : dstva ≤ a ∧ a < dstva + src.length ∧ σ'.user root a = src.getD (a - dstva) 0 ∧
      ∀ b, dstva ≤ b → b ≤ a → σ.Writable root b := by
  have hle := h.le
  have hlen : (src.take n).length = n := by
    rw [List.length_take]
    omega
  have hus := h.stored.user a (reads_iff.mpr ha)
  have hin : dstva ≤ a ∧ a < dstva + n := by
    by_contra hout
    rw [splice_outside (by omega)] at hus
    exact hne hus
  obtain ⟨i, rfl⟩ := Nat.exists_eq_add_of_le hin.1
  refine ⟨hin.1, by omega, ?_, fun b hl hb => ?_⟩
  · rw [hus, splice_inside (by omega), Nat.add_sub_cancel_left, List.getD_eq_getElem?_getD, List.getD_eq_getElem?_getD,
      List.getElem?_take_of_lt (by omega)]
  · obtain ⟨j, rfl⟩ := Nat.exists_eq_add_of_le hl
    exact writes_iff.mp (h.good j (by omega))

theorem copyin_spec (hu : UserPages σ root) (srcva len : ℕ) : ∃ ok bs, copyin root srcva len σ = .ok ((ok, bs), σ) ∧
    (ok = true ↔ ∀ a, srcva ≤ a → a < srcva + len → σ.Readable root a) ∧ (ok = true → bs = slice (σ.user root) srcva len) := by
  have hend : Ends (copyin root srcva len) σ fun r σ' => σ' = σ ∧ ∃ n, Fetched σ root srcva len r.1 r.2 n := ends_copyin hu.pos
  obtain ⟨r, τ, he, rfl, n, hn⟩ := hend.eval
  refine ⟨r.1, r.2, he, ?_, fun hok => ?_⟩
  · rw [hn.all]
    constructor
    · rintro rfl a hl hlt
      obtain ⟨i, rfl⟩ := Nat.exists_eq_add_of_le hl
      exact reads_iff.mp (hn.good i (by omega))
    · intro hall
      by_contra hne
      have hlt : n < len := lt_of_le_of_ne hn.le hne
      exact hn.bad hlt (reads_iff.mpr (hall (srcva + n) (by omega) (by omega)))
  · rw [hn.bytes, hn.all.mp hok]

/-- What has been written is there. -/
theorem Stored.slice (h : Stored σ σ' root dstva src) (hread : ∀ a, dstva ≤ a → a < dstva + src.length → σ.Readable root a) :
    slice (σ'.user root) dstva src.length = src := by
  rw [slice_congr fun i hi => h.user (dstva + i) (reads_iff.mpr (hread (dstva + i) (by omega) (by omega)))]
  exact slice_splice_self

/-- It is read again. -/
theorem Stored.copyin (hu : UserPages σ root) (h : Stored σ σ' root dstva src)
    (hread : ∀ a, dstva ≤ a → a < dstva + src.length → σ.Readable root a) :
    Vm.copyin root dstva src.length σ' = .ok ((true, src), σ') := by
  obtain ⟨ok, bs, he, hok, hbs⟩ := copyin_spec (h.userPages hu) dstva src.length
  have htrue : ok = true := hok.mpr fun a hl hlt => reads_iff.mp (h.reads.mpr (reads_iff.mpr (hread a hl hlt)))
  rw [he, htrue, hbs htrue, h.slice hread]

/-- **User copies are exact.**  `copyout` returns 0 if and only if all of the destination can be written by the user, and has then
written the source there and nothing else of the user's memory; when it returns -1, only bytes before the first page that cannot
be written have changed.  `copyin` returns 0 if and only if all of the source can be read, and then with its bytes.  What
`copyout` has written, `copyin` reads. -/
theorem copies_exact (hu : UserPages σ root) :
    (∀ dstva src, ∃ ok σ', copyout root dstva src σ = .ok (ok, σ') ∧
      (ok = true ↔ ∀ a, dstva ≤ a → a < dstva + src.length → σ.Writable root a) ∧ σ'.map root = σ.map root ∧
      (ok = true → ∀ a, σ.Readable root a → σ'.user root a =
        if dstva ≤ a ∧ a < dstva + src.length then src.getD (a - dstva) 0 else σ.user root a) ∧
      (ok = false → ∀ a, σ.Readable root a → σ'.user root a ≠ σ.user root a →
        dstva ≤ a ∧ a < dstva + src.length ∧ σ'.user root a = src.getD (a - dstva) 0 ∧
          ∀ b, dstva ≤ b → b ≤ a → σ.Writable root b) ∧
      (ok = true → copyin root dstva src.length σ' = .ok ((true, src), σ'))) ∧
    ∀ srcva len, ∃ ok bs, copyin root srcva len σ = .ok ((ok, bs), σ) ∧
      (ok = true ↔ ∀ a, srcva ≤ a → a < srcva + len → σ.Readable root a) ∧ (ok = true → bs = slice (σ.user root) srcva len) := by
  refine ⟨fun dstva src => ?_, copyin_spec hu⟩
  have hend : Ends (copyout root dstva src) σ fun ok σ' => ∃ n, Written σ σ' root dstva src ok n := ends_copyout hu
  obtain ⟨ok, σ', he, n, hn⟩ := hend.eval
  refine ⟨ok, σ', he, hn.all_iff, hn.stored.map, ?_, fun _ a ha hne => hn.changed ha hne, ?_⟩
  · rintro rfl a ha
    exact hn.stored_all.user a (reads_iff.mpr ha)
  · rintro rfl
    exact hn.stored_all.copyin hu fun a hl hlt => (hn.all_iff.mp rfl a hl hlt).1

/-! ## Small page tables -/

/-- Pages are mapped for the user to read and write: each pair is a page and where it is. -/
def mapUser (root : ℕ) : List (ℕ × ℕ) → Code Bool
  | [] => pure true
  | (u, f) :: l => do
    if ← mappages root (u * PGSIZE) PGSIZE (f * PGSIZE) (PTE_R ||| PTE_W ||| PTE_U) then mapUser root l else pure false

/-- A page table with these pages. -/
def userTable (l : List (ℕ × ℕ)) : Code (Option ℕ) := do
  match ← uvmcreate with
  | none => pure none
  | some root => do
    if ← mapUser root l then pure (some root) else pure none

/-- The entry of such a page. -/
def userEntry (f : ℕ) : ℕ := PA2PTE (f * PGSIZE) ||| (PTE_R ||| PTE_W ||| PTE_U) ||| PTE_V

/-- The user has the pages of the list and no others, and the page table is in pages that were free. -/
structure UserTable (σ : Phys) (root : ℕ) (l : List (ℕ × ℕ)) : Prop where
  pages : ∀ q ∈ σ.pages 2 root, q ∈ fourPages.free
  writes : ∀ x ∈ l, σ.Writes root x.1 ∧ σ.frame root x.1 = x.2
  reads : ∀ u, σ.Reads root u → (u, σ.frame root u) ∈ l

theorem userEntry_flags {f : ℕ} (hf : f < 2 ^ 52) :
    userEntry f &&& PTE_V ≠ 0 ∧ userEntry f &&& PTE_U ≠ 0 ∧ userEntry f &&& PTE_W ≠ 0 ∧ PTE2PA (userEntry f) = f := by
  have hperm : PTE_R ||| PTE_W ||| PTE_U < 2 ^ 10 := by decide
  have hw : userEntry f = f * 1024 + 23 := by
    rw [userEntry, entry_eq hperm, Nat.mul_div_cancel _ (by decide)]
    rfl
  have hmod : userEntry f % 1024 = 23 := by omega
  have hflag : ∀ b < 1024, 23 &&& b ≠ 0 → userEntry f &&& b ≠ 0 := fun b hb h => by rwa [and_flags hb, hmod]
  refine ⟨hflag _ (by decide) (by decide), hflag _ (by decide) (by decide), hflag _ (by decide) (by decide), ?_⟩
  rw [PTE2PA, shiftRight_ten]
  omega

variable {l : List (ℕ × ℕ)}

theorem ends_mapUser (h : Tree smallRam σ 2 root) (hl : ∀ x ∈ l, x.1 < 2 ^ 26 ∧ x.2 < 2 ^ 52) (hnd : (l.map Prod.fst).Nodup)
    (hfree : ∀ x ∈ l, σ.map root x.1 = 0) : Ends (mapUser root l) σ fun ok σ' => ok = true →
      Trade σ σ' (σ.pages 2 root) (σ'.pages 2 root) ∧ (∀ x ∈ l, σ'.map root x.1 = userEntry x.2) ∧
        ∀ u ∉ l.map Prod.fst, σ'.map root u = σ.map root u := by
  induction l generalizing σ with
  | nil => exact ends_pure.mpr fun _ => ⟨.refl, by simp, fun _ _ => rfl⟩
  | cons x l ih =>
    obtain ⟨u, f⟩ := x
    obtain ⟨⟨hu, hf⟩, hl⟩ := List.forall_mem_cons.mp hl
    obtain ⟨hzero, hfree⟩ := List.forall_mem_cons.mp hfree
    obtain ⟨hnot, hnd⟩ := List.nodup_cons.mp hnd
    have hpa : f * PGSIZE < 2 ^ 64 := by
      simp only [PGSIZE]
      omega
    rw [mapUser, ends_bind]
    refine (ends_mappage h hu hpa (by decide) (by rw [hzero]; rfl)).mono fun ok σ1 h1 => ?_
    obtain ⟨htree, htrade, hmap⟩ := h1
    cases ok with
    | false => exact ends_pure.mpr fun hok => absurd hok (by decide)
    | true =>
      rw [if_pos rfl] at hmap ⊢
      have hother : ∀ x ∈ l, x.1 ≠ u := fun x hx he => hnot (List.mem_map.mpr ⟨x, hx, he⟩)
      refine (ih htree hl hnd fun x hx => ?_).mono fun ok σ2 h2 hok => ?_
      · rw [hmap, update_of_ne (hother x hx)]
        exact hfree x hx
      · obtain ⟨htrade2, hin, hout⟩ := h2 hok
        refine ⟨htrade.trans htrade2, List.forall_mem_cons.mpr ⟨?_, hin⟩, fun v hv => ?_⟩
        · rw [hout u hnot, hmap, update_self]
          rfl
        · obtain ⟨hvu, hv⟩ := not_or.mp (mt List.mem_cons.mpr hv)
          rw [hout v hv, hmap, update_of_ne hvu]

theorem ends_userTable (hl : ∀ x ∈ l, x.1 < 2 ^ 26 ∧ x.2 < 2 ^ 52) (hnd : (l.map Prod.fst).Nodup) (hσ : σ.free = fourPages.free) :
    Ends (userTable l) σ fun r σ' => ∀ root, r = some root → UserTable σ' root l := by
  rw [userTable, ends_bind]
  have hhas : ∀ q ∈ σ.free, smallRam.Has q := hσ ▸ by decide
  refine (ends_uvmcreate (hσ ▸ by decide) hhas).mono fun r σ1 hr => ?_
  rcases hr with ⟨rfl, -⟩ | ⟨root, rfl, htree, htrade, hmap⟩
  · exact ends_pure.mpr nofun
  dsimp only
  rw [ends_bind]
  refine (ends_mapUser htree hl hnd (by simp [hmap])).mono fun ok σ2 h2 => ?_
  cases ok with
  | false => exact ends_pure.mpr nofun
  | true =>
    obtain ⟨htrade2, hin, hout⟩ := h2 rfl
    refine ends_pure.mpr fun root' hroot => ?_
    cases hroot
    refine ⟨fun q hq => ?_, fun x hx => ?_, fun u hu => ?_⟩
    · have hmem := (htrade.trans htrade2).perm.subset (List.mem_append_right _ hq)
      rw [← hσ]
      simpa using hmem
    · obtain ⟨hV, hU, hW, hppn⟩ := userEntry_flags (hl x hx).2
      rw [Phys.Writes, Phys.Reads, Phys.frame, hin x hx]
      exact ⟨⟨⟨(hl x hx).1.trans_le (by decide), hV, hU⟩, hW⟩, hppn⟩
    · by_cases hmem : u ∈ l.map Prod.fst
      · obtain ⟨⟨v, f⟩, hx, rfl⟩ := List.mem_map.mp hmem
        rwa [Phys.frame, hin _ hx, (userEntry_flags (hl _ hx).2).2.2.2]
      · have hvalid := hu.2.1
        rw [hout u hmem, hmap] at hvalid
        exact absurd (Nat.zero_and _) hvalid

theorem UserTable.userPages (h : UserTable σ root l) (hnd : (l.map Prod.snd).Nodup)
    (hl : ∀ x ∈ l, x.2 ≠ 0 ∧ x.2 ∉ fourPages.free) : UserPages σ root where
  inj := fun u u' hr hr' he => congrArg Prod.fst (List.inj_on_of_nodup_map hnd (h.reads u hr) (h.reads u' hr') he)
  pos := fun u hr => (hl _ (h.reads u hr)).1
  apart := fun u hr hin => (hl _ (h.reads u hr)).2 (h.pages _ hin)

/-- Bytes are copied out across the two pages, and in again. -/
theorem copies_exact_twoPages : ∃ σ σ', UserPages σ 0x80010 ∧ copyout 0x80010 (511 * PGSIZE - 1) [7, 8] σ = .ok (true, σ') ∧
    σ'.user 0x80010 (511 * PGSIZE) = 8 ∧ copyin 0x80010 (511 * PGSIZE - 1) 2 σ' = .ok ((true, [7, 8]), σ') := by
  have hrun : Ends (userTable [(510, 0x80020), (511, 0x80021)]) fourPages fun r _ => r = some 0x80010 := by decide +kernel
  obtain ⟨r, σ, he, rfl⟩ := hrun.eval
  have htable := (ends_userTable (by decide) (by decide) rfl).of_eval he 0x80010 rfl
  have hu : UserPages σ 0x80010 := htable.userPages (by decide) (by decide)
  obtain ⟨ok, σ', he', hok, -, hbytes, -, hback⟩ := (copies_exact hu).1 (511 * PGSIZE - 1) [7, 8]
  have hrange : ∀ a, 511 * PGSIZE - 1 ≤ a → a < 511 * PGSIZE - 1 + 2 → σ.Writable 0x80010 a := by
    intro a hl hlt
    have hpage : a / PGSIZE = 510 ∨ a / PGSIZE = 511 := by
      simp only [PGSIZE] at *
      omega
    refine writes_iff.mp ?_
    rcases hpage with hp | hp <;> rw [hp]
    · exact (htable.writes (510, 0x80020) (by simp)).1
    · exact (htable.writes (511, 0x80021) (by simp)).1
  obtain rfl : ok = true := hok.mpr hrange
  refine ⟨σ, σ', hu, he', ?_, hback rfl⟩
  rw [hbytes rfl _ (hrange _ (by decide) (by decide)).1]
  rfl

/-- A user's page that is a page of the page table, the one with its entry: what is copied there changes the entries, and
the bytes are not there to be copied in again. -/
theorem copyout_own_table : ∃ σ, (∀ u u', σ.Reads 0x80010 u → σ.Reads 0x80010 u' → σ.frame 0x80010 u = σ.frame 0x80010 u' → u = u') ∧
    (∀ u, σ.Reads 0x80010 u → σ.frame 0x80010 u ≠ 0) ∧
    Ends (copyout 0x80010 (PGSIZE + 8) (List.replicate 8 0)) σ fun ok σ' => ok = true ∧
      Ends (copyin 0x80010 (PGSIZE + 8) 8) σ' fun r _ => r.1 = false := by
  have hrun : Ends (userTable [(1, 0x80012)]) fourPages fun r σ => r = some 0x80010 ∧
      Ends (copyout 0x80010 (PGSIZE + 8) (List.replicate 8 0)) σ fun ok σ' => ok = true ∧
        Ends (copyin 0x80010 (PGSIZE + 8) 8) σ' fun r _ => r.1 = false := by
    decide +kernel
  obtain ⟨r, σ, he, rfl, hlost⟩ := hrun.eval
  have htable := (ends_userTable (by decide) (by decide) rfl).of_eval he 0x80010 rfl
  refine ⟨σ, fun u u' hr hr' _ => ?_, fun u hr => ?_, hlost⟩
  · have hone : ∀ {u}, σ.Reads 0x80010 u → u = 1 := fun hr => (by simpa using htable.reads _ hr : _ ∧ _).1
    rw [hone hr, hone hr']
  · obtain ⟨-, hf⟩ : u = 1 ∧ σ.frame 0x80010 u = 0x80012 := by simpa using htable.reads u hr
    rw [hf]
    decide

end Xv6Mlfq.Vm
