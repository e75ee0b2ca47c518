import Xv6Mlfq.Vm.Table

/-!
# Xv6Mlfq.Vm.Map — page tables are finite maps

`Built ram root σ`: in `σ` the page table at `root` is one that `uvmcreate` has made and `walk`, `mappages` and `uvmunmap` have
changed, whatever has happened to the rest of memory meanwhile.

`pagetable_map`: `mappages` and `uvmunmap` change the translations of the pages they are given and no others.
-/

namespace Xv6Mlfq.Vm

open Exec

variable {ram : Ram} {σ σ' : Phys} {root va v n perm pa : ℕ}

/-- What an entry says: the physical address and the flags, if it is valid. -/
def translation (w : ℕ) : Option (ℕ × ℕ) := if w &&& PTE_V ≠ 0 then some (PTE2PA w * PGSIZE, PTE_FLAGS w) else none

/-- The translation of virtual page `v`. -/
def Phys.translate (σ : Phys) (root v : ℕ) : Option (ℕ × ℕ) := translation (σ.map root v)

/-- Page tables as the operations make them. -/
inductive Built (ram : Ram) (root : ℕ) : Phys → Prop
  | uvmcreate {σ σ' : Phys} : σ.free.Nodup → (∀ q ∈ σ.free, ram.Has q) → uvmcreate σ = .ok (some root, σ') → Built ram root σ'
  | walk {σ σ' : Phys} {va : ℕ} {alloc : Bool} {r : Option (ℕ × ℕ)} : Built ram root σ → walk root va alloc σ = .ok (r, σ') →
      Built ram root σ'
  | mappages {σ σ' : Phys} {va size pa perm : ℕ} {ok : Bool} : Built ram root σ → pa < 2 ^ 64 → perm < 2 ^ 64 →
      mappages root va size pa perm σ = .ok (ok, σ') → Built ram root σ'
  /- what is freed is not part of the table, and not free -/
  | uvmunmap {σ σ' : Phys} {v n : ℕ} {doFree : Bool} : Built ram root σ → v + n ≤ MAXVA / PGSIZE →
      (∀ u, v ≤ u → u < v + n → Leaf (σ.map root u)) →
      (σ.free ++ (freed doFree (σ.map root) v n ++ σ.pages 2 root)).Nodup → (∀ f ∈ freed doFree (σ.map root) v n, ram.Has f) →
      uvmunmap ram root (v * PGSIZE) n doFree σ = .ok ((), σ') → Built ram root σ'
  /- the rest of the kernel does not touch the pages of the table -/
  | other {σ σ' : Phys} : Built ram root σ → (∀ q ∈ σ.pages 2 root, σ'.mem q = σ.mem q) → (σ'.free ++ σ.pages 2 root).Nodup →
      (∀ q ∈ σ'.free, ram.Has q) → Built ram root σ'

theorem leaves_mappagesLoop {last fuel a : ℕ} (h : Tree ram σ 2 root) (hpa : pa < 2 ^ 64) (hperm : perm < 2 ^ 64) :
    Leaves (mappagesLoop root last perm fuel a pa) σ fun _ σ' => Tree ram σ' 2 root := by
  induction fuel generalizing a pa σ with
  | zero => exact Leaves.throw
  | succ fuel ih =>
    rw [mappagesLoop]
    apply Leaves.bind
    by_cases ha : MAXVA ≤ a
    · rw [walk, if_pos ha]
      exact Leaves.throw
    · refine (ends_walk_true h (by omega)).leaves.mono fun r τ hr => ?_
      have hτ := hr.1.tree h
      cases r with
      | none => exact Leaves.pure hτ
      | some s =>
        obtain ⟨hset, -⟩ := hτ.setLeaf (hr.2 s rfl) (word_lt hpa hperm) rfl
        dsimp only
        apply Leaves.bind
        refine (ends_get.mpr ?_).leaves
        by_cases hvalid : τ.pte s.1 s.2 &&& PTE_V ≠ 0
        · rw [if_pos hvalid]
          exact Leaves.throw
        · rw [if_neg hvalid]
          apply Leaves.bind
          refine (ends_setPte.mpr ?_).leaves
          by_cases hlast : a = last
          · rw [if_pos hlast]
            exact Leaves.pure hset
          · rw [if_neg hlast]
            exact ih hset (Nat.mod_lt _ (by decide))

theorem Built.tree (h : Built ram root σ) : Tree ram σ 2 root := by
  induction h with
  | uvmcreate hnd hhas he =>
    rcases (ends_uvmcreate hnd hhas).of_eval he with hr | ⟨root', hr, htree, -⟩
    · cases hr.1
    · cases hr
      exact htree
  | @walk σ σ' va alloc r _ he ih =>
    by_cases hva : MAXVA ≤ va
    · rw [Vm.walk, if_pos hva] at he
      cases he
    · cases alloc with
      | true => exact ((ends_walk_true ih (by omega)).of_eval he).1.tree ih
      | false =>
        have hend : Ends (Vm.walk root va false) σ fun _ τ => τ = σ := (ends_walk (by omega)).mpr rfl
        rw [hend.of_eval he]
        exact ih
  | mappages _ hpa hperm he ih =>
    rw [Vm.mappages] at he
    split_ifs at he
    · cases he
    · cases he
    · cases he
    · exact leaves_mappagesLoop ih hpa hperm _ _ he
  | uvmunmap _ hv hleaf hnd hhas he ih =>
    have hle : MAXVA / PGSIZE = 2 ^ 26 := by decide
    exact ((ends_uvmunmap ih (hle ▸ hv) hleaf hnd hhas).of_eval he).1
  | other _ hmem hnd hhas ih => exact (ih.congr hmem hnd hhas).1

/-- The entry that `mappages` writes. -/
theorem entry_eq (hperm : perm < 2 ^ 10) : PA2PTE pa ||| perm ||| PTE_V = pa / PGSIZE * 1024 + (perm ||| PTE_V) := by
  rw [Nat.or_assoc, PA2PTE_eq, or_eq_add (Nat.or_lt_two_pow hperm (by decide))]

theorem translation_mapped (haligned : pa % PGSIZE = 0) (hpa : pa < 2 ^ 64) (hperm : perm < 2 ^ 10) :
    translation (PA2PTE pa ||| perm ||| PTE_V) = some (pa, perm ||| PTE_V) := by
  have hf : perm ||| PTE_V < 1024 := Nat.or_lt_two_pow (n := 10) hperm (by decide)
  have hodd : (perm ||| PTE_V) % 2 = 1 := Nat.or_mod_two_eq_one.mpr (.inr rfl)
  have hvalid : (pa / PGSIZE * 1024 + (perm ||| PTE_V)) &&& PTE_V ≠ 0 := by
    rw [and_PTE_V]
    omega
  have hppn : PTE2PA (pa / PGSIZE * 1024 + (perm ||| PTE_V)) = pa / PGSIZE := by
    rw [PTE2PA, shiftRight_ten]
    simp only [PGSIZE]
    omega
  have hflags : PTE_FLAGS (pa / PGSIZE * 1024 + (perm ||| PTE_V)) = perm ||| PTE_V := by
    rw [PTE_FLAGS_eq]
    omega
  rw [entry_eq hperm, translation, if_pos hvalid, hppn, hflags, Nat.div_mul_cancel (Nat.dvd_of_mod_eq_zero haligned)]

theorem translate_mapped {m : ℕ → ℕ} {u : ℕ} (hpa : pa % PGSIZE = 0) (hle : pa + n * PGSIZE ≤ 2 ^ 64) (hperm : perm < 2 ^ 10) :
    translation (mapped m v n pa perm u) =
      if v ≤ u ∧ u < v + n then some (pa + (u - v) * PGSIZE, perm ||| PTE_V) else translation (m u) := by
  unfold mapped
  by_cases hin : v ≤ u ∧ u < v + n
  · have hlt : pa + (u - v) * PGSIZE < 2 ^ 64 := by
      simp only [PGSIZE] at *
      omega
    have haligned : (pa + (u - v) * PGSIZE) % PGSIZE = 0 := by rw [Nat.add_mul_mod_self_right, hpa]
    rw [if_pos hin, if_pos hin, Nat.mod_eq_of_lt hlt, translation_mapped haligned hlt hperm]
  · rw [if_neg hin, if_neg hin]

theorem translate_eq_none_iff {w : ℕ} : translation w = none ↔ w &&& PTE_V = 0 := by
  rw [translation]
  split_ifs with h
  · simp [h]
  · simpa using h

/-- A `mappages` that returns 0. -/
theorem translate_of_mappages {u : ℕ} (h : Tree ram σ 2 root) (hn : 0 < n) (hv : v + n ≤ 2 ^ 26) (hpa : pa % PGSIZE = 0)
    (hle : pa + n * PGSIZE ≤ 2 ^ 64) (hperm : perm < 2 ^ 10) (hfree : ∀ u, v ≤ u → u < v + n → σ.translate root u = none)
    (he : mappages root (v * PGSIZE) (n * PGSIZE) pa perm σ = .ok (true, σ')) :
    σ'.translate root u = if v ≤ u ∧ u < v + n then some (pa + (u - v) * PGSIZE, perm ||| PTE_V) else σ.translate root u := by
  have hpa64 : pa < 2 ^ 64 := by
    simp only [PGSIZE] at hle
    omega
  have hperm64 : perm < 2 ^ 64 := by omega
  have hend := ends_mappages h hn hv hpa64 hperm64 fun u hu hlt => translate_eq_none_iff.mp (hfree u hu hlt)
  obtain ⟨-, -, k, -, hk, hmap⟩ := hend.of_eval he
  obtain rfl : k = n := hk.mp rfl
  rw [Phys.translate, hmap, translate_mapped hpa hle hperm, Phys.translate]

/-- **Page tables are finite maps.**  A `mappages` that returns 0 gives the pages of its range the translations that it is asked for and
leaves the others; `uvmunmap` of a range that is mapped takes those of its range away and leaves the others; `walk` without `alloc`
changes nothing; and two addresses have the same entry if and only if they are in the same page. -/
theorem pagetable_map (hb : Built ram root σ) :
    (∀ va size pa perm σ', va % PGSIZE = 0 → size % PGSIZE = 0 → 0 < size → va + size ≤ MAXVA → pa % PGSIZE = 0 →
      pa + size ≤ 2 ^ 64 → perm < 2 ^ 10 → (∀ u, va / PGSIZE ≤ u → u < (va + size) / PGSIZE → σ.translate root u = none) →
      mappages root va size pa perm σ = .ok (true, σ') → ∀ u, σ'.translate root u =
        if va / PGSIZE ≤ u ∧ u < (va + size) / PGSIZE then some (pa + (u - va / PGSIZE) * PGSIZE, perm ||| PTE_V)
        else σ.translate root u) ∧
    (∀ va npages doFree, va % PGSIZE = 0 → va + npages * PGSIZE ≤ MAXVA →
      (∀ u, va / PGSIZE ≤ u → u < va / PGSIZE + npages → Leaf (σ.map root u)) →
      (σ.free ++ (freed doFree (σ.map root) (va / PGSIZE) npages ++ σ.pages 2 root)).Nodup →
      (∀ f ∈ freed doFree (σ.map root) (va / PGSIZE) npages, ram.Has f) →
      ∃ σ', uvmunmap ram root va npages doFree σ = .ok ((), σ') ∧ ∀ u, σ'.translate root u =
        if va / PGSIZE ≤ u ∧ u < va / PGSIZE + npages then none else σ.translate root u) ∧
    (∀ va < MAXVA, ∃ r, walk root va false σ = .ok (r, σ)) ∧
    ∀ va < MAXVA, ∀ va' < MAXVA, ∀ s, walk root va false σ = .ok (some s, σ) →
      (walk root va' false σ = .ok (some s, σ) ↔ va / PGSIZE = va' / PGSIZE) := by
  have htree := hb.tree
  have hwalk : ∀ va < MAXVA, walk root va false σ = .ok (σ.slot 2 root (va / PGSIZE), σ) := by
    intro va hva
    have hend : Ends (walk root va false) σ fun r τ => r = σ.slot 2 root (va / PGSIZE) ∧ τ = σ := (ends_walk hva).mpr ⟨rfl, rfl⟩
    obtain ⟨r, τ, he, rfl, rfl⟩ := hend.eval
    exact he
  refine ⟨?_, ?_, ?_, ?_⟩
  · intro va size pa perm σ' hva hsize hpos hle hpa hpale hperm hfree he u
    obtain ⟨v, rfl⟩ := Nat.dvd_of_mod_eq_zero hva
    obtain ⟨n, rfl⟩ := Nat.dvd_of_mod_eq_zero hsize
    rw [Nat.mul_comm PGSIZE v, Nat.mul_comm PGSIZE n] at *
    have hdiv : (v * PGSIZE + n * PGSIZE) / PGSIZE = v + n := by rw [← Nat.add_mul, Nat.mul_div_cancel _ (by decide)]
    rw [Nat.mul_div_cancel _ (by decide), hdiv] at hfree ⊢
    refine translate_of_mappages htree ?_ ?_ hpa hpale hperm hfree he
    · simp only [PGSIZE] at hpos
      omega
    · simp only [PGSIZE, MAXVA] at hle
      omega
  · intro va npages doFree hva hle hleaf hnd hhas
    obtain ⟨v, rfl⟩ := Nat.dvd_of_mod_eq_zero hva
    rw [Nat.mul_comm PGSIZE v, Nat.mul_div_cancel _ (by decide)] at *
    have hv : v + npages ≤ 2 ^ 26 := by
      simp only [PGSIZE, MAXVA] at hle
      omega
    obtain ⟨⟨⟩, σ', he, -, -, -, hmap⟩ := (ends_uvmunmap htree hv hleaf hnd hhas).eval
    refine ⟨σ', he, fun u => ?_⟩
    rw [Phys.translate, hmap, unmapped]
    split_ifs
    · rfl
    · rfl
  · intro va hva
    exact ⟨_, hwalk va hva⟩
  · intro va hva va' hva' s he
    rw [hwalk va hva] at he
    have hs : σ.slot 2 root (va / PGSIZE) = some s := congrArg Prod.fst (Except.ok.inj he)
    rw [hwalk va' hva']
    constructor
    · intro he'
      have hs' : σ.slot 2 root (va' / PGSIZE) = some s := congrArg Prod.fst (Except.ok.inj he')
      have hdigits := Radix.slot_inj (by decide) htree.pages_nodup hs hs'
      simp only [PGSIZE, MAXVA] at *
      omega
    · intro hsame
      rw [← hsame, hs]

/-- A memory with four free pages. -/
def smallRam : Ram := ⟨0x80010, 0x80000, by decide, by decide, by decide⟩

def fourPages : Phys := ⟨fun _ _ => 0, [0x80010, 0x80011, 0x80012, 0x80013], []⟩

theorem built_fourPages {Q : Phys → Prop} (h : Ends uvmcreate fourPages fun r σ => r = some 0x80010 ∧ Q σ) :
    ∃ σ, Built smallRam 0x80010 σ ∧ Q σ := by
  obtain ⟨r, σ, he, rfl, hq⟩ := h.eval
  exact ⟨σ, Built.uvmcreate (by decide) (by decide) he, hq⟩

set_option maxRecDepth 2048 in
/-- Three pages are mapped for reading, in two tables, and two of them unmapped. -/
theorem pagetable_map_fourPages : ∃ σ σ' σ'', Built smallRam 0x80010 σ ∧
    mappages 0x80010 (511 * PGSIZE) (3 * PGSIZE) (0x80020 * PGSIZE) PTE_R σ = .ok (true, σ') ∧
    (∀ u, 511 ≤ u → u < 514 → σ'.translate 0x80010 u = some (0x80020 * PGSIZE + (u - 511) * PGSIZE, PTE_R ||| PTE_V)) ∧
    uvmunmap smallRam 0x80010 (512 * PGSIZE) 2 false σ' = .ok ((), σ'') ∧
    σ''.translate 0x80010 511 = some (0x80020 * PGSIZE, PTE_R ||| PTE_V) ∧
    σ''.translate 0x80010 512 = none ∧ σ''.translate 0x80010 513 = none := by
  have hrun : Ends uvmcreate fourPages fun r σ => r = some 0x80010 ∧ ((∀ u ∈ [511, 512, 513], σ.translate 0x80010 u = none) ∧
      Ends (mappages 0x80010 (511 * PGSIZE) (3 * PGSIZE) (0x80020 * PGSIZE) PTE_R) σ fun ok σ' => ok = true ∧
        ∀ u ∈ [512, 513], σ'.map 0x80010 u &&& PTE_V ≠ 0 ∧ PTE_FLAGS (σ'.map 0x80010 u) ≠ PTE_V) := by
    decide +kernel
  obtain ⟨σ, hb, hnone, hrun⟩ := built_fourPages hrun
  obtain ⟨ok, σ', he, rfl, hleaf⟩ := hrun.eval
  have hb' : Built smallRam 0x80010 σ' := hb.mappages (by decide) (by decide) he
  have hthree : ∀ u, 511 ≤ u → u < 514 → σ.translate 0x80010 u = none := by
    intro u hl hu
    refine hnone u ?_
    simp only [List.mem_cons, List.not_mem_nil]
    omega
  have htwo : ∀ u, 512 * PGSIZE / PGSIZE ≤ u → u < 512 * PGSIZE / PGSIZE + 2 → Leaf (σ'.map 0x80010 u) := by
    intro u hl hu
    rw [Nat.mul_div_cancel _ (by decide)] at hl hu
    refine hleaf u ?_
    simp only [List.mem_cons, List.not_mem_nil]
    omega
  have htr := (pagetable_map hb).1 (511 * PGSIZE) (3 * PGSIZE) (0x80020 * PGSIZE) PTE_R σ' (by decide) (by decide) (by decide)
    (by decide) (by decide) (by decide) (by decide) hthree he
  obtain ⟨σ'', he', hun⟩ := (pagetable_map hb').2.1 (512 * PGSIZE) 2 false (by decide) (by decide) htwo
    (by simpa [freed] using hb'.tree.nodup) (by simp [freed])
  exact ⟨σ, σ', σ'', hb, he, fun u hl hu => (htr u).trans (if_pos ⟨hl, hu⟩), he', (hun 511).trans (htr 511), hun 512, hun 513⟩
/-- A page that is mapped without any permission cannot be unmapped. -/
theorem unmap_valid_only : ∃ σ σ', Built smallRam 0x80010 σ ∧ mappages 0x80010 0 PGSIZE (0x80020 * PGSIZE) 0 σ = .ok (true, σ') ∧
    σ'.translate 0x80010 0 = some (0x80020 * PGSIZE, PTE_V) ∧
    Fails (uvmunmap smallRam 0x80010 0 1 false) σ' .uvmunmapNotLeaf := by
  have hrun : Ends uvmcreate fourPages fun r σ => r = some 0x80010 ∧
      Ends (mappages 0x80010 0 PGSIZE (0x80020 * PGSIZE) 0) σ fun ok σ' => ok = true ∧
        σ'.translate 0x80010 0 = some (0x80020 * PGSIZE, PTE_V) ∧
        Fails (uvmunmap smallRam 0x80010 0 1 false) σ' .uvmunmapNotLeaf := by
    decide +kernel
  obtain ⟨σ, hb, hrun⟩ := built_fourPages hrun
  obtain ⟨ok, σ', he, rfl, htr, hfail⟩ := hrun.eval
  exact ⟨σ, σ', hb, he, htr, hfail⟩

end Xv6Mlfq.Vm
