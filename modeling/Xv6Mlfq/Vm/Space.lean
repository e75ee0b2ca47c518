import Xv6Mlfq.Vm.Copy

/-!
# Xv6Mlfq.Vm.Space — user memory grows, shrinks and is copied

* `User ram σ root n`: the page table at `root` maps `n` pages for the user, from 0 on, each to a page of its own.
* `Grew σ0 σ root n k perm data`: since `σ0` the pages from `n` to `k` have been added, with flags `perm` and contents `data`.
  `uvmalloc` and `uvmcopy` are loops that add a page in a round; when they fail, `Grew.undo` takes the pages away.
* `ends_uvmalloc`, `ends_uvmdealloc`, `ends_uvmcopy`, `ends_uvmfree`: what they do, and which pages they trade.
-/

namespace Xv6Mlfq.Vm

open Bytes Function Exec

variable {ram : Ram} {σ σ' σ0 τ : Phys} {root n k p q u v w a b sz oldsz newsz xperm fuel : ℕ}
  {xs ys : List ℕ} {m : ℕ → ℕ}

/-! ## Entries -/

/-- The first virtual page that is not for the user. -/
def TOP : ℕ := TRAPFRAME / PGSIZE

theorem TOP_eq : TOP = 2 ^ 26 - 2 := by decide

/-- The entry of page `p` with the flags `perm`. -/
def entry (p perm : ℕ) : ℕ := PA2PTE (p * PGSIZE) ||| perm ||| PTE_V

section Entry

variable {perm : ℕ}

theorem entry_add (hperm : perm < 2 ^ 10) : entry p perm = p * 1024 + (perm ||| PTE_V) := by
  rw [entry, entry_eq hperm, Nat.mul_div_cancel _ (by decide)]

theorem or_valid_lt (hperm : perm < 2 ^ 10) : perm ||| PTE_V < 1024 := Nat.or_lt_two_pow (n := 10) hperm (by decide)

theorem PTE2PA_entry (hp : p < 2 ^ 52) (hperm : perm < 2 ^ 10) : PTE2PA (entry p perm) = p := by
  have hlt := or_valid_lt hperm
  rw [entry_add hperm, PTE2PA, shiftRight_ten]
  omega

theorem PTE_FLAGS_entry (hperm : perm < 2 ^ 10) : PTE_FLAGS (entry p perm) = perm ||| PTE_V := by
  have hlt := or_valid_lt hperm
  rw [entry_add hperm, PTE_FLAGS_eq]
  omega

theorem and_entry {f : ℕ} (hperm : perm < 2 ^ 10) (hf : f < 1024) : entry p perm &&& f = (perm ||| PTE_V) &&& f := by
  have hlt := or_valid_lt hperm
  have hmod : entry p perm % 1024 = perm ||| PTE_V := by
    rw [entry_add hperm]
    omega
  rw [and_flags hf, hmod]

theorem leaf_entry (hperm : perm < 2 ^ 10) (hleaf : perm ||| PTE_V ≠ PTE_V) : Leaf (entry p perm) := by
  refine ⟨?_, ?_⟩
  · rw [and_entry hperm (by decide), and_PTE_V, Nat.or_mod_two_eq_one.mpr (.inr rfl)]
    decide
  · rwa [PTE_FLAGS_entry hperm]

theorem entry_lt (hp : p < 2 ^ 52) (hperm : perm < 2 ^ 10) : entry p perm < 2 ^ 64 := by
  refine word_lt ?_ ?_
  · simp only [PGSIZE]
    omega
  · omega

end Entry

theorem frames_add : frames m v (a + b) = frames m v a ++ frames m (v + a) b := by
  rw [frames, ← List.range'_append, Nat.one_mul, List.map_append, frames, frames]

theorem frames_split (h : k ≤ n) : frames m 0 n = frames m 0 k ++ frames m k (n - k) := by
  obtain ⟨d, rfl⟩ := Nat.exists_eq_add_of_le h
  rw [frames_add, Nat.zero_add, Nat.add_sub_cancel_left]

theorem length_frames : (frames m v n).length = n := by rw [frames, List.length_map, List.length_range']

theorem mem_frames (hl : v ≤ u) (hu : u < v + n) : PTE2PA (m u) ∈ frames m v n :=
  List.mem_map_of_mem (List.mem_range'_1.mpr ⟨hl, hu⟩)

/-! ## The pages of a user -/

structure User (ram : Ram) (σ : Phys) (root n : ℕ) : Prop where
  tree : Tree ram σ 2 root
  leaf : ∀ u < n, Leaf (σ.map root u)
  room : ∀ u, n ≤ u → u < TOP → σ.map root u = 0
  nodup : (σ.free ++ (frames (σ.map root) 0 n ++ σ.pages 2 root)).Nodup
  has : ∀ f ∈ frames (σ.map root) 0 n, ram.Has f

/-- There is a page of memory for each of them. -/
theorem User.le (h : User ram σ root n) : n ≤ 0x88000 := by
  have hnd : (frames (σ.map root) 0 n).Nodup := (List.nodup_append.mp (List.nodup_append.mp h.nodup).2.1).1
  have hsub : frames (σ.map root) 0 n ⊆ List.range 0x88000 := fun f hf => List.mem_range.mpr (h.has f hf).lt
  have hlen := (List.subperm_of_subset hnd hsub).length_le
  rwa [length_frames, List.length_range] at hlen

theorem User.lt_top (h : User ram σ root n) : n < TOP := Nat.lt_of_le_of_lt h.le (by decide)

theorem User.zero (h : Tree ram σ 2 root) (hroom : ∀ u < TOP, σ.map root u = 0) : User ram σ root 0 where
  tree := h
  leaf := nofun
  room := fun u _ hu => hroom u hu
  nodup := h.nodup
  has := nofun

theorem User.frame_other (h : User ram σ root n) (hu : u < n) : σ.frame root u ∉ σ.free ++ σ.pages 2 root := by
  have hin : σ.frame root u ∈ frames (σ.map root) 0 n := mem_frames (Nat.zero_le u) (by omega)
  have hnd := h.nodup
  rw [List.nodup_append] at hnd
  intro hbad
  rcases List.mem_append.mp hbad with hbad | hbad
  · exact hnd.2.2 _ hbad _ (List.mem_append_left _ hin) rfl
  · exact List.disjoint_of_nodup_append hnd.2.1 hin hbad

/-- The tables have been changed, but not what they say of the user's pages. -/
theorem User.keep (h : User ram σ root n) (htree : Tree ram σ' 2 root) (hmap : ∀ u < TOP, σ'.map root u = σ.map root u)
    (ht : Trade σ σ' (σ.pages 2 root) (σ'.pages 2 root)) : User ram σ' root n ∧ frames (σ'.map root) 0 n = frames (σ.map root) 0 n := by
  have htop := h.lt_top
  have hframes : frames (σ'.map root) 0 n = frames (σ.map root) 0 n := frames_congr fun u _ hu => hmap u (by omega)
  refine ⟨⟨htree, fun u hu => ?_, fun u hl hu => ?_, ?_, ?_⟩, hframes⟩
  · rw [hmap u (by omega)]
    exact h.leaf u hu
  · rw [hmap u hu]
    exact h.room u hl hu
  · rw [hframes]
    exact (ht.frame_left _).nodup h.nodup
  · rw [hframes]
    exact h.has

/-- What others trade does not matter. -/
theorem User.traded (h : User ram σ root n) (ht : Trade σ σ' xs ys)
    (hnd : (σ.free ++ (xs ++ (frames (σ.map root) 0 n ++ σ.pages 2 root))).Nodup) (hhas : ∀ q ∈ xs, ram.Has q) :
    User ram σ' root n ∧ σ'.pages 2 root = σ.pages 2 root ∧ σ'.map root = σ.map root ∧
      ∀ f ∈ frames (σ.map root) 0 n, σ'.mem f = σ.mem f := by
  have hsub : (σ.free ++ (xs ++ σ.pages 2 root)).Nodup :=
    hnd.sublist ((List.Sublist.refl _).append ((List.Sublist.refl _).append (List.sublist_append_right _ _)))
  obtain ⟨htree, hpages, hsame⟩ := h.tree.traded ht hsub hhas
  have hmap : σ'.map root = σ.map root := map_congr fun v => (hsame v).2
  refine ⟨⟨htree, ?_, ?_, ?_, ?_⟩, hpages, hmap, fun f hf => ht.mem f fun hin => ?_⟩
  · rw [hmap]
    exact h.leaf
  · rw [hmap]
    exact h.room
  · rw [hmap, hpages]
    exact (ht.frame.nodup hnd).sublist ((List.Sublist.refl _).append (List.sublist_append_right _ _))
  · rw [hmap]
    exact h.has
  · rw [← List.append_assoc] at hnd
    exact List.disjoint_of_nodup_append hnd hin (List.mem_append_left _ hf)

/-- The pages of a table after `kalloc` of `p`. -/
theorem Tree.kalloc (h : Tree ram σ 2 root) (hp : p ∈ σ.free) (ht : Trade σ τ [] [p]) :
    Tree ram τ 2 root ∧ τ.pages 2 root = σ.pages 2 root ∧ τ.map root = σ.map root ∧ ram.Has p ∧
      (τ.free ++ (p :: σ.pages 2 root)).Nodup := by
  obtain ⟨htree, hpages, hsame⟩ := h.traded ht (by simpa using h.nodup) nofun
  refine ⟨htree, hpages, map_congr fun v => (hsame v).2, h.has p (List.mem_append_left _ hp), ?_⟩
  exact ht.frame.nodup (by simpa using h.nodup)

theorem Tree.ends_kfree {Q : Unit → Phys → Prop} (h : Tree ram σ 2 root) (hp : ram.Has p)
    (hnd : (σ.free ++ (p :: σ.pages 2 root)).Nodup)
    (hQ : ∀ σ', Tree ram σ' 2 root → σ'.pages 2 root = σ.pages 2 root → σ'.map root = σ.map root → Trade σ σ' [p] [] → Q () σ') :
    Ends (kfree ram p) σ Q := by
  refine Vm.ends_kfree hp fun σ' ht => ?_
  obtain ⟨htree, hpages, hsame⟩ := h.traded ht hnd fun q hq => List.mem_singleton.mp hq ▸ hp
  exact hQ σ' htree hpages (map_congr fun v => (hsame v).2) ht

/-- A page that `kalloc` has returned is mapped. -/
theorem Tree.ends_mapNew {perm : ℕ} (h : Tree ram σ 2 root) (hp : p ∈ σ.free) (ht : Trade σ τ [] [p]) (hv : v < 2 ^ 26)
    (hperm : perm < 2 ^ 10) (hfree : σ.map root v = 0) :
    Ends (mappages root (v * PGSIZE) PGSIZE (p * PGSIZE) perm) τ fun ok σ' =>
      Tree ram σ' 2 root ∧ Trade σ σ' (σ.pages 2 root) (p :: σ'.pages 2 root) ∧ σ'.mem p = τ.mem p ∧
        σ'.map root = if ok then update (σ.map root) v (entry p perm) else σ.map root := by
  obtain ⟨htree, hpages, hmap, hhas, hnd⟩ := h.kalloc hp ht
  have hpa : p * PGSIZE < 2 ^ 64 := by
    have := hhas.lt
    simp only [PGSIZE]
    omega
  refine (ends_mappage htree hv hpa (by omega) (by rw [hmap, hfree]; rfl)).mono fun ok σ' hend => ?_
  obtain ⟨htree', htrade', hmap'⟩ := hend
  refine ⟨htree', ?_, htrade'.mem p fun hin => ?_, ?_⟩
  · have hτ : Trade σ τ (σ.pages 2 root) (τ.pages 2 root ++ [p]) := by
      have hfr : Trade σ τ ([] ++ σ.pages 2 root) ([p] ++ σ.pages 2 root) := ht.frame
      refine hfr.of_perm (List.Perm.refl _) ?_
      rw [hpages]
      exact List.perm_append_comm
    exact (hτ.trans htrade'.frame).of_perm (List.Perm.refl _) (List.perm_append_singleton _ _)
  · rw [hpages] at hin
    rw [List.nodup_append] at hnd
    rcases List.mem_append.mp hin with hin | hin
    · exact hnd.2.2 p hin p (List.mem_cons_self ..) rfl
    · exact (List.nodup_cons.mp hnd.2.1).1 hin
  · rw [hmap', hmap]
    rfl

/-! ## Pages are added -/

structure Grew (ram : Ram) (σ0 σ : Phys) (root n k : ℕ) (perm : ℕ → ℕ) (data : ℕ → Frame) : Prop where
  user : User ram σ root k
  le : n ≤ k
  trade : Trade σ0 σ (σ0.pages 2 root) (frames (σ.map root) n (k - n) ++ σ.pages 2 root)
  old : ∀ u, u < n ∨ k ≤ u → σ.map root u = σ0.map root u
  new : ∀ u, n ≤ u → u < k → σ.map root u = entry (σ.frame root u) (perm u) ∧
    ∀ i < PGSIZE, σ.mem (σ.frame root u) i = data u i

section Grew

variable {perm : ℕ → ℕ} {data : ℕ → Frame}

theorem Grew.refl (h : User ram σ root n) : Grew ram σ σ root n n perm data where
  user := h
  le := le_rfl
  trade := by
    rw [Nat.sub_self]
    exact Trade.refl
  old := fun _ _ => rfl
  new := fun u hl hu => absurd hu (by omega)

section

variable (h : Grew ram σ0 σ root n k perm data)
include h

/-- The tables have been changed, but not what they say. -/
theorem Grew.keep (htree : Tree ram σ' 2 root) (hmap : σ'.map root = σ.map root)
    (ht : Trade σ σ' (σ.pages 2 root) (σ'.pages 2 root)) : Grew ram σ0 σ' root n k perm data where
  user := (h.user.keep htree (fun u _ => congrFun hmap u) ht).1
  le := h.le
  trade := by
    rw [hmap]
    exact h.trade.trans (ht.frame_left _)
  old := by
    rw [hmap]
    exact h.old
  new := by
    intro u hl hu
    have hframe : σ'.frame root u = σ.frame root u := by rw [Phys.frame, hmap, Phys.frame]
    rw [hframe, hmap, ht.mem _ (h.user.frame_other hu)]
    exact h.new u hl hu

/-- `kalloc` has returned nothing. -/
theorem Grew.quiet (ht : Trade σ τ [] []) : Grew ram σ0 τ root n k perm data := by
  obtain ⟨huser, hpages, hmap, -⟩ := h.user.traded ht (by simpa using h.user.nodup) nofun
  refine h.keep huser.tree hmap ?_
  rw [hpages]
  exact ht.frame

/-- A page that `kalloc` has returned, filled by then, is mapped behind the others; if that fails, it is given back. -/
theorem Grew.ends_add (hp : p ∈ σ.free) (ht : Trade σ τ [] [p])
    (hdata : ∀ i < PGSIZE, τ.mem p i = data k i) (hperm : perm k < 2 ^ 10) (hleaf : perm k ||| PTE_V ≠ PTE_V) :
    Ends (mappages root (k * PGSIZE) PGSIZE (p * PGSIZE) (perm k)) τ fun ok σ' =>
      (ok = true → Grew ram σ0 σ' root n (k + 1) perm data) ∧
      (ok = false → Ends (kfree ram p) σ' fun _ σ'' => Grew ram σ0 σ'' root n k perm data) := by
  have htop := h.user.lt_top
  rw [TOP_eq] at htop
  have hle := h.le
  have hhas : ram.Has p := h.user.tree.has p (List.mem_append_left _ hp)
  have hppn : PTE2PA (entry p (perm k)) = p := PTE2PA_entry (Nat.lt_trans hhas.lt (by decide)) hperm
  refine (h.user.tree.ends_mapNew hp ht (by omega) hperm (h.user.room k le_rfl h.user.lt_top)).mono fun ok σ' hend => ?_
  obtain ⟨htree, htrade, hmem, hmap⟩ := hend
  -- all that is the user's, with the new page
  have hall : Trade σ σ' (frames (σ.map root) 0 k ++ σ.pages 2 root) (frames (σ.map root) 0 k ++ (p :: σ'.pages 2 root)) :=
    htrade.frame_left _
  have hnd := hall.nodup h.user.nodup
  refine ⟨fun hok => ?_, fun hok => ?_⟩
  · rw [if_pos hok] at hmap
    have hsame : ∀ u < k, σ'.map root u = σ.map root u := by
      intro u hu
      rw [hmap, update_of_ne (by omega)]
    have hself : σ'.map root k = entry p (perm k) := by rw [hmap, update_self]
    have hframes : ∀ a b, a + b ≤ k → frames (σ'.map root) a b = frames (σ.map root) a b :=
      fun a b hab => frames_congr fun u _ hu => hsame u (by omega)
    have hlast : ∀ a b, a + b = k → frames (σ'.map root) a (b + 1) = frames (σ.map root) a b ++ [p] := by
      rintro a b rfl
      rw [frames_add, hframes a b le_rfl, frames_succ, hself, hppn]
      rfl
    refine ⟨⟨htree, fun u hu => ?_, fun u hl hu => ?_, ?_, ?_⟩, by omega, ?_, fun u hu => ?_, fun u hl hu => ?_⟩
    · rcases Nat.lt_or_eq_of_le (Nat.le_of_lt_succ hu) with hu | rfl
      · rw [hsame u hu]
        exact h.user.leaf u hu
      · rw [hself]
        exact leaf_entry hperm hleaf
    · rw [hmap, update_of_ne (by omega)]
      exact h.user.room u (by omega) hu
    · rw [hlast 0 k (Nat.zero_add k), List.append_assoc]
      exact hnd
    · rw [hlast 0 k (Nat.zero_add k)]
      intro f hf
      rcases List.mem_append.mp hf with hf | hf
      · exact h.user.has f hf
      · rw [List.mem_singleton.mp hf]
        exact hhas
    · rw [show k + 1 - n = k - n + 1 by omega, hlast n (k - n) (by omega), List.append_assoc]
      exact h.trade.trans (htrade.frame_left _)
    · rw [hmap, update_of_ne (by omega)]
      exact h.old u (by omega)
    · rcases Nat.lt_or_eq_of_le (Nat.le_of_lt_succ hu) with hu | rfl
      · obtain ⟨hentry, hbytes⟩ := h.new u hl hu
        have hframe : σ'.frame root u = σ.frame root u := by rw [Phys.frame, hsame u hu, Phys.frame]
        rw [hframe, hsame u hu, htrade.mem _ (h.user.frame_other hu)]
        exact ⟨hentry, hbytes⟩
      · have hframe : σ'.frame root u = p := by rw [Phys.frame, hself, hppn]
        rw [hframe, hself, hmem]
        exact ⟨rfl, hdata⟩
  · rw [if_neg (by simp [hok])] at hmap
    have hnd' : (σ'.free ++ (p :: σ'.pages 2 root)).Nodup :=
      hnd.sublist ((List.Sublist.refl _).append (List.sublist_append_right _ _))
    refine htree.ends_kfree hhas hnd' fun σ'' htree' hpages' hmap' htrade' => ?_
    refine h.keep htree' (hmap'.trans hmap) ?_
    rw [hpages']
    exact htrade.trans htrade'.frame

/-- All that is the user's. -/
theorem Grew.whole :
    Trade σ0 σ (frames (σ0.map root) 0 n ++ σ0.pages 2 root) (frames (σ.map root) 0 k ++ σ.pages 2 root) := by
  have hold : frames (σ.map root) 0 n = frames (σ0.map root) 0 n := frames_congr fun u _ hu => h.old u (.inl (by omega))
  rw [frames_split h.le, hold, List.append_assoc]
  exact h.trade.frame_left _

end

end Grew

/-! ## Pages are taken away -/

/-- The pages from `k` to `n` have been taken away. -/
structure Cut (ram : Ram) (σ σ' : Phys) (root k n : ℕ) : Prop where
  user : User ram σ' root k
  pages : σ'.pages 2 root = σ.pages 2 root
  trade : Trade σ σ' (frames (σ.map root) k (n - k) ++ σ.pages 2 root) (σ.pages 2 root)
  map : σ'.map root = unmapped (σ.map root) k (n - k)

theorem Cut.whole (h : Cut ram σ σ' root k n) (hk : k ≤ n) :
    Trade σ σ' (frames (σ.map root) 0 n ++ σ.pages 2 root) (frames (σ'.map root) 0 k ++ σ'.pages 2 root) := by
  have hold : frames (σ'.map root) 0 k = frames (σ.map root) 0 k :=
    frames_congr fun u _ hu => (congrFun h.map u).trans (if_neg (by omega))
  rw [frames_split hk, hold, List.append_assoc, h.pages]
  exact h.trade.frame_left _

theorem User.ends_cut (h : User ram σ root n) (hk : k ≤ n) :
    Ends (uvmunmap ram root (k * PGSIZE) (n - k) true) σ fun _ σ' => Cut ram σ σ' root k n := by
  have htop := h.lt_top
  rw [TOP_eq] at htop
  have hsplit : frames (σ.map root) 0 n = frames (σ.map root) 0 k ++ frames (σ.map root) k (n - k) := frames_split hk
  have hnd := h.nodup
  rw [hsplit, List.append_assoc] at hnd
  have hcut : (σ.free ++ (frames (σ.map root) k (n - k) ++ σ.pages 2 root)).Nodup :=
    hnd.sublist ((List.Sublist.refl _).append (List.sublist_append_right _ _))
  have hhas : ∀ f ∈ frames (σ.map root) k (n - k), ram.Has f := fun f hf => h.has f (hsplit ▸ List.mem_append_right _ hf)
  have hend : Ends (uvmunmap ram root (k * PGSIZE) (n - k) true) σ fun _ σ' => Tree ram σ' 2 root ∧
      σ'.pages 2 root = σ.pages 2 root ∧ Trade σ σ' (frames (σ.map root) k (n - k) ++ σ.pages 2 root) (σ.pages 2 root) ∧
        σ'.map root = unmapped (σ.map root) k (n - k) :=
    ends_uvmunmap h.tree (by omega) (fun u _ hu => h.leaf u (by omega)) hcut hhas
  refine hend.mono fun _ σ' hcase => ?_
  obtain ⟨htree, hpages, htrade, hmap⟩ := hcase
  have hsame : ∀ u < k, σ'.map root u = σ.map root u := by
    intro u hu
    rw [hmap]
    exact if_neg (by omega)
  have hframes : frames (σ'.map root) 0 k = frames (σ.map root) 0 k := frames_congr fun u _ hu => hsame u (by omega)
  refine ⟨⟨htree, fun u hu => ?_, fun u hl hu => ?_, ?_, ?_⟩, hpages, htrade, hmap⟩
  · rw [hsame u hu]
    exact h.leaf u (by omega)
  · rw [hmap, unmapped]
    by_cases hn : u < k + (n - k)
    · rw [if_pos ⟨hl, hn⟩]
    · rw [if_neg fun hin => hn hin.2]
      exact h.room u (by omega) hu
  · rw [hframes, hpages]
    exact (htrade.frame_left _).nodup hnd
  · rw [hframes]
    exact fun f hf => h.has f (hsplit ▸ List.mem_append_left _ hf)

/-- The pages that have been added are taken away. -/
theorem Grew.undo {perm : ℕ → ℕ} {data : ℕ → Frame} (h : Grew ram σ0 σ root n k perm data) (h0 : User ram σ0 root n)
    (hc : Cut ram σ σ' root n k) : Grew ram σ0 σ' root n n perm data where
  user := hc.user
  le := le_rfl
  trade := by
    rw [Nat.sub_self, hc.pages]
    exact h.trade.trans hc.trade
  old := by
    intro u _
    have htop := h.user.lt_top
    rw [hc.map, unmapped]
    by_cases hin : n ≤ u ∧ u < n + (k - n)
    · rw [if_pos hin, h0.room u hin.1 (by omega)]
    · rw [if_neg hin]
      exact h.old u (by omega)
  new := fun u hl hu => absurd hu (by omega)

/-! ## `uvmalloc` and `uvmdealloc` -/

/-- How many pages `sz` bytes need. -/
def pagesOf (sz : ℕ) : ℕ := (sz + PGSIZE - 1) / PGSIZE

theorem pagesOf_mul (n : ℕ) : pagesOf (n * PGSIZE) = n := by
  simp only [pagesOf, PGSIZE]
  omega

theorem pagesOf_le : pagesOf sz ≤ n ↔ sz ≤ n * PGSIZE := by
  simp only [pagesOf, PGSIZE]
  omega

theorem pagesOf_mono (h : a ≤ b) : pagesOf a ≤ pagesOf b := Nat.div_le_div_right (by omega)

theorem PGROUNDUP_eq (hle : pagesOf sz ≤ 0x88000) : PGROUNDUP sz = pagesOf sz * PGSIZE := by
  simp only [pagesOf, PGROUNDUP, PGSIZE] at *
  omega

theorem ends_uvmdealloc (h : User ram σ root n) (hn : n = pagesOf oldsz) :
    Ends (uvmdealloc ram root oldsz newsz) σ fun r σ' => r = min oldsz newsz ∧ Cut ram σ σ' root (pagesOf (min oldsz newsz)) n := by
  have hsame : ∀ {m}, m = n → Cut ram σ σ root m n := by
    rintro m rfl
    refine ⟨h, rfl, ?_, ?_⟩
    · rw [Nat.sub_self]
      exact Trade.refl
    · funext u
      exact (if_neg (by omega)).symm
  have hle := h.le
  rw [uvmdealloc]
  by_cases hold : oldsz ≤ newsz
  · rw [if_pos hold, ends_pure, Nat.min_eq_left hold]
    exact ⟨rfl, hsame hn.symm⟩
  · have hk : pagesOf newsz ≤ n := by
      simp only [pagesOf, PGSIZE] at *
      omega
    rw [if_neg hold, ends_bind, Nat.min_eq_right (by omega), PGROUNDUP_eq (hk.trans hle), PGROUNDUP_eq (hn ▸ hle), ← hn]
    by_cases hlt : pagesOf newsz * PGSIZE < n * PGSIZE
    · rw [if_pos hlt, ← Nat.sub_mul, Nat.mul_div_cancel _ (by decide)]
      exact (h.ends_cut hk).mono fun _ σ' hc => ends_pure.mpr ⟨rfl, hc⟩
    · have heq : pagesOf newsz = n := by
        simp only [PGSIZE] at hlt
        omega
      rw [if_neg hlt, ends_pure, ends_pure]
      exact ⟨rfl, hsame heq⟩

theorem or_read_ne {x : ℕ} : PTE_R ||| PTE_U ||| x ||| PTE_V ≠ PTE_V := by
  intro he
  have hbit := congrArg (Nat.testBit · 1) he
  simp only [Nat.testBit_or] at hbit
  exact absurd hbit (by simp [show PTE_R.testBit 1 = true by decide, show PTE_V.testBit 1 = false by decide])

theorem ends_uvmallocLoop (h0 : User ram σ0 root n) (hx : xperm < 2 ^ 10)
    (h : Grew ram σ0 σ root n k (fun _ => PTE_R ||| PTE_U ||| xperm) fun _ _ => 0) (hfuel : 0x88000 < fuel + k) :
    Ends (uvmallocLoop ram root (n * PGSIZE) newsz xperm fuel (k * PGSIZE)) σ fun r σ' =>
      (r = newsz ∧ Grew ram σ0 σ' root n (max k (pagesOf newsz)) (fun _ => PTE_R ||| PTE_U ||| xperm) fun _ _ => 0) ∨
      (r = 0 ∧ k < pagesOf newsz ∧ Grew ram σ0 σ' root n n (fun _ => PTE_R ||| PTE_U ||| xperm) fun _ _ => 0) := by
  -- what is left to do when a page cannot be had
  have hback : ∀ {k : ℕ} {σ : Phys}, k < pagesOf newsz →
      Grew ram σ0 σ root n k (fun _ => PTE_R ||| PTE_U ||| xperm) (fun _ _ => 0) →
      Ends (do
        let _ ← uvmdealloc ram root (k * PGSIZE) (n * PGSIZE)
        pure 0) σ fun r σ' =>
        (r = newsz ∧ Grew ram σ0 σ' root n (max k (pagesOf newsz)) (fun _ => PTE_R ||| PTE_U ||| xperm) fun _ _ => 0) ∨
        (r = 0 ∧ k < pagesOf newsz ∧ Grew ram σ0 σ' root n n (fun _ => PTE_R ||| PTE_U ||| xperm) fun _ _ => 0) := by
    intro k σ hk h
    rw [ends_bind]
    refine (ends_uvmdealloc h.user (pagesOf_mul k).symm).mono fun r σ' hend => ends_pure.mpr (.inr ⟨rfl, hk, ?_⟩)
    have hc := hend.2
    rw [Nat.min_eq_right (Nat.mul_le_mul_right _ h.le), pagesOf_mul] at hc
    exact h.undo h0 hc
  induction fuel generalizing k σ with
  | zero =>
    have := h.user.le
    omega
  | succ fuel ih =>
    have hle := h.user.le
    have hlt : k * PGSIZE < newsz ↔ k < pagesOf newsz := by rw [← Nat.not_le, ← Nat.not_le, pagesOf_le]
    rw [uvmallocLoop]
    by_cases hk : k * PGSIZE < newsz
    · rw [if_pos hk, ends_bind]
      refine ends_kalloc (fun σ' ht => hback (hlt.mp hk) (h.quiet ht)) fun p τ hp ht => ?_
      have hperm : PTE_R ||| PTE_U ||| xperm < 2 ^ 10 := Nat.or_lt_two_pow (by decide) hx
      have htrade : Trade σ (τ.setPage p fun _ => 0) [] [p] := ht.trans (Trade.setPage (List.mem_singleton_self p))
      dsimp only
      rw [ends_bind, ends_memset, ends_bind]
      refine (h.ends_add hp htrade (fun i _ => by rw [mem_setPage_self]) hperm or_read_ne).mono fun ok σ' hend => ?_
      cases ok with
      | true =>
        have hnext : (k * PGSIZE + PGSIZE) % 2 ^ 64 = (k + 1) * PGSIZE := by
          simp only [PGSIZE]
          omega
        have hmax : max (k + 1) (pagesOf newsz) = max k (pagesOf newsz) := by
          have := hlt.mp hk
          omega
        rw [if_pos rfl, hnext]
        refine (ih (hend.1 rfl) (by omega)).mono fun r σ'' hcase => ?_
        rw [hmax] at hcase
        rcases hcase with hdone | ⟨hr, -, hg⟩
        · exact .inl hdone
        · exact .inr ⟨hr, hlt.mp hk, hg⟩
      | false =>
        rw [if_neg (by decide), ends_bind]
        exact (hend.2 rfl).mono fun _ σ'' hg => hback (hlt.mp hk) hg
    · rw [if_neg hk, ends_pure]
      refine .inl ⟨rfl, ?_⟩
      rw [Nat.max_eq_left (Nat.not_lt.mp fun hbad => hk (hlt.mpr hbad))]
      exact h

/-- `uvmalloc` adds the pages up to `newsz`, or none. -/
theorem ends_uvmalloc (h : User ram σ root n) (hn : n = pagesOf oldsz) (hx : xperm < 2 ^ 10) :
    Ends (uvmalloc ram root oldsz newsz xperm) σ fun r σ' =>
      (r = max oldsz newsz ∧
        Grew ram σ σ' root n (pagesOf (max oldsz newsz)) (fun _ => PTE_R ||| PTE_U ||| xperm) fun _ _ => 0) ∨
      (r = 0 ∧ n < pagesOf newsz ∧ Grew ram σ σ' root n n (fun _ => PTE_R ||| PTE_U ||| xperm) fun _ _ => 0) := by
  rw [uvmalloc]
  by_cases hlt : newsz < oldsz
  · rw [if_pos hlt, ends_pure, Nat.max_eq_left (by omega), ← hn]
    exact .inl ⟨rfl, Grew.refl h⟩
  · rw [if_neg hlt, PGROUNDUP_eq (hn ▸ h.le), ← hn, Nat.max_eq_right (by omega)]
    have hmax : max n (pagesOf newsz) = pagesOf newsz := by
      refine Nat.max_eq_right ?_
      simp only [hn, pagesOf, PGSIZE]
      omega
    have hfuel : 0x88000 < PHYSTOP / PGSIZE + 1 + n := by
      rw [top_eq]
      omega
    refine (ends_uvmallocLoop h hx (Grew.refl h) hfuel).mono fun r σ' hcase => ?_
    rwa [hmax] at hcase

/-! ## `uvmcopy` -/

/-- A page table of which no page has changed says what it has said. -/
theorem map_of_mem (hmem : ∀ q ∈ σ.pages 2 root, σ'.mem q = σ.mem q) : σ'.map root = σ.map root :=
  map_congr fun _ => Radix.word_of_agree (by decide) fun q hq _ _ => pte_congr (hmem q hq)

theorem Leaf.flags (h : Leaf w) : PTE_FLAGS w < 2 ^ 10 ∧ PTE_FLAGS w ||| PTE_V = PTE_FLAGS w := by
  have hlt : PTE_FLAGS w < 2 ^ 10 := by
    rw [PTE_FLAGS_eq]
    omega
  have hodd : PTE_FLAGS w % 2 = 1 := by
    have hv := h.1
    rw [and_PTE_V] at hv
    rw [PTE_FLAGS_eq]
    omega
  refine ⟨hlt, ?_⟩
  refine Nat.eq_of_testBit_eq fun i => ?_
  rw [Nat.testBit_or]
  cases i with
  | zero => simp [Nat.testBit_zero, hodd]
  | succ i => simp [PTE_V, Nat.testBit_succ]

section Copy

variable {old new sz : ℕ}

/-- What `uvmcopy` needs of the parent: its pages are there, and are not the child's. -/
structure Parent (σ : Phys) (old new n : ℕ) : Prop where
  leaf : ∀ u < n, Leaf (σ.map old u)
  apart : ∀ q ∈ frames (σ.map old) 0 n ++ σ.pages 2 old, q ∉ σ.free ++ σ.pages 2 new

theorem ends_uvmcopyLoop (h0 : User ram σ0 new 0) (hold : Parent σ0 old new n) (hn : n = pagesOf sz) (htop : n ≤ 0x88000)
    (h : Grew ram σ0 σ new 0 k (fun u => PTE_FLAGS (σ0.map old u)) fun u => σ0.mem (σ0.frame old u)) (hkn : k ≤ n)
    (hfuel : fuel = n - k) :
    Ends (uvmcopyLoop ram old new sz fuel (k * PGSIZE)) σ fun ok σ' =>
      (ok = true ∧ Grew ram σ0 σ' new 0 n (fun u => PTE_FLAGS (σ0.map old u)) fun u => σ0.mem (σ0.frame old u)) ∨
      (ok = false ∧ Grew ram σ0 σ' new 0 0 (fun u => PTE_FLAGS (σ0.map old u)) fun u => σ0.mem (σ0.frame old u)) := by
  have hback : ∀ {k : ℕ} {σ : Phys},
      Grew ram σ0 σ new 0 k (fun u => PTE_FLAGS (σ0.map old u)) (fun u => σ0.mem (σ0.frame old u)) →
      Ends (do
        uvmunmap ram new 0 (k * PGSIZE / PGSIZE) true
        pure false) σ fun ok σ' =>
        (ok = true ∧ Grew ram σ0 σ' new 0 n (fun u => PTE_FLAGS (σ0.map old u)) fun u => σ0.mem (σ0.frame old u)) ∨
        (ok = false ∧ Grew ram σ0 σ' new 0 0 (fun u => PTE_FLAGS (σ0.map old u)) fun u => σ0.mem (σ0.frame old u)) := by
    intro k σ h
    have hcut := h.user.ends_cut (Nat.zero_le k)
    rw [Nat.zero_mul, Nat.sub_zero] at hcut
    rw [ends_bind, Nat.mul_div_cancel _ (by decide)]
    exact hcut.mono fun _ σ' hc => ends_pure.mpr (.inr ⟨rfl, h.undo h0 hc⟩)
  induction fuel generalizing k σ with
  | zero =>
    obtain rfl : k = n := by omega
    exact ends_pure.mpr (.inl ⟨rfl, h⟩)
  | succ fuel ih =>
    have hk : k * PGSIZE < sz := by
      rw [← Nat.not_le, ← pagesOf_le]
      omega
    -- the parent's pages are as they were
    have hsame : ∀ q ∈ frames (σ0.map old) 0 n ++ σ0.pages 2 old, σ.mem q = σ0.mem q :=
      fun q hq => h.trade.mem q (hold.apart q hq)
    have hmap : σ.map old = σ0.map old := map_of_mem fun q hq => hsame q (List.mem_append_right _ hq)
    have hframe : σ0.frame old k ∈ frames (σ0.map old) 0 n := mem_frames (Nat.zero_le k) (by omega)
    have hmax : k < MAXVA / PGSIZE := Nat.lt_of_lt_of_le (show k < 0x88000 by omega) (by decide)
    have hleaf := hold.leaf k (by omega)
    rw [uvmcopyLoop, if_pos hk, ends_bind]
    refine ends_entry hmax (fun hzero => ?_) fun q j hpte => ?_
    · rw [hmap] at hzero
      exact absurd (by rw [hzero]; rfl) hleaf.1
    · dsimp only
      rw [ends_bind, ends_get, hpte, hmap, if_neg hleaf.1, ends_bind]
      refine ends_kalloc (fun σ' ht => hback (h.quiet ht)) fun p τ hp ht => ?_
      obtain ⟨hperm, hor⟩ := hleaf.flags
      -- the page is not one of the parent's
      have hother : σ0.frame old k ∉ σ.free := fun hin =>
        hold.apart _ (List.mem_append_left _ hframe) (h.trade.perm.subset (List.mem_append_left _ hin))
      have hmem : τ.mem (σ0.frame old k) = σ0.mem (σ0.frame old k) := by
        rw [ht.mem _ (by simpa using hother), hsame _ (List.mem_append_left _ hframe)]
      have htrade : Trade σ (τ.setPage p (splice (τ.mem p) 0 (slice (τ.mem (σ0.frame old k)) 0 PGSIZE))) [] [p] :=
        ht.trans (Trade.setPage (List.mem_singleton_self p))
      have hdata : ∀ i < PGSIZE,
          (τ.setPage p (splice (τ.mem p) 0 (slice (τ.mem (σ0.frame old k)) 0 PGSIZE))).mem p i = σ0.mem (σ0.frame old k) i := by
        intro i hi
        have hin : splice (τ.mem p) 0 (slice (τ.mem (σ0.frame old k)) 0 PGSIZE) (0 + i) =
            (slice (τ.mem (σ0.frame old k)) 0 PGSIZE).getD i 0 := splice_inside (by simpa using hi)
        rw [getD_slice hi, Nat.zero_add, hmem] at hin
        rw [mem_setPage_self, hmem, hin]
      dsimp only
      rw [ends_bind, ends_get, ends_bind, ends_store, ends_bind]
      refine (h.ends_add hp htrade hdata hperm (by rw [hor]; exact hleaf.2)).mono fun ok σ' hend => ?_
      cases ok with
      | true =>
        rw [if_pos rfl, ← Nat.succ_mul]
        exact ih (hend.1 rfl) (by omega) (by omega)
      | false =>
        rw [if_neg (by decide), ends_bind]
        exact (hend.2 rfl).mono fun _ σ'' hg => hback hg

theorem ends_uvmcopy (h : User ram σ new 0) (hold : Parent σ old new n) (hn : n = pagesOf sz) (htop : n ≤ 0x88000) :
    Ends (uvmcopy ram old new sz) σ fun ok σ' =>
      (ok = true ∧ Grew ram σ σ' new 0 n (fun u => PTE_FLAGS (σ.map old u)) fun u => σ.mem (σ.frame old u)) ∨
      (ok = false ∧ Grew ram σ σ' new 0 0 (fun u => PTE_FLAGS (σ.map old u)) fun u => σ.mem (σ.frame old u)) := by
  have hend := ends_uvmcopyLoop h hold hn htop (Grew.refl h) (Nat.zero_le n) rfl
  rw [Nat.zero_mul, Nat.sub_zero, hn] at hend
  rw [hn]
  exact hend

end Copy

/-! ## `uvmfree` -/

theorem word_invalid (h : ∀ u, σ.map root u &&& PTE_V = 0) (v : ℕ) : σ.word 2 root v &&& PTE_V = 0 := by
  have hdig : σ.slot 2 root v = σ.slot 2 root (v % 2 ^ 27) := Radix.slot_digits (Nat.mod_mod _ _).symm
  cases hs : σ.slot 2 root v with
  | none => 
    rw [Phys.word, Radix.word_none hs]
    rfl
  | some s =>
    have hmap : σ.map root (v % 2 ^ 27) = σ.pte s.1 s.2 := map_of_slot (Nat.mod_lt _ (by decide)) (hdig ▸ hs)
    rw [Phys.word, Radix.word_some hs, ← hmap]
    exact h _

theorem ends_uvmfree (h : User ram σ root n) (hn : n = pagesOf sz) (habove : ∀ u, TOP ≤ u → σ.map root u &&& PTE_V = 0) :
    Ends (uvmfree ram root sz) σ fun _ σ' => Trade σ σ' (frames (σ.map root) 0 n ++ σ.pages 2 root) [] := by
  have hwalk : ∀ {τ : Phys}, Cut ram σ τ root 0 n → Ends (freewalk ram 3 root) τ fun _ σ' =>
      Trade σ σ' (frames (σ.map root) 0 n ++ σ.pages 2 root) [] := by
    intro τ hc
    have hinv : ∀ u, τ.map root u &&& PTE_V = 0 := by
      intro u
      by_cases hu : u < TOP
      · rw [hc.user.room u (Nat.zero_le u) hu]
        rfl
      · have hle := h.lt_top
        rw [hc.map, unmapped, if_neg (by omega)]
        exact habove u (by omega)
    refine (ends_freewalk hc.user.tree (word_invalid hinv)).mono fun _ σ' ht => ?_
    rw [hc.pages] at ht
    exact hc.trade.trans ht
  rw [uvmfree, ends_bind]
  by_cases hsz : 0 < sz
  · have hcut := h.ends_cut (Nat.zero_le n)
    rw [Nat.zero_mul, Nat.sub_zero] at hcut
    rw [if_pos hsz, PGROUNDUP_eq (hn ▸ h.le), ← hn, Nat.mul_div_cancel _ (by decide)]
    exact hcut.mono fun _ τ hc => hwalk hc
  · have hzero : n = 0 := by
      rw [hn, pagesOf, PGSIZE]
      omega
    subst hzero
    rw [if_neg hsz, ends_pure]
    refine hwalk ⟨h, rfl, Trade.refl, ?_⟩
    funext u
    exact (if_neg (by omega)).symm

end Xv6Mlfq.Vm
