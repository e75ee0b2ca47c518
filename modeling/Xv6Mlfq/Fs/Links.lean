import Xv6Mlfq.Fs.Tree
import Xv6Mlfq.Lib.Count
import Mathlib.Algebra.Order.BigOperators.Group.Finset

/-!
# Xv6Mlfq.Fs.Links — directory entries and link counts

* `Tree.links`: the entries other than `.` that name an inode, in directories that have a link themselves.
* `Shape`: the link counts are the numbers of these entries, up to an excess `x`, and the directories form a tree.
* one lemma for each change that the calls make to inodes and entries.
-/

namespace Xv6Mlfq.Files

open Function Finset Tally

namespace Tree

/-- The number of entries of a directory. -/
def entries (s : Tree) (d : ℕ) : ℕ := (s.inode d).size / sizeofDirent

/-- A directory with a link. -/
def Live (s : Tree) (d : ℕ) : Prop := (s.inode d).type = .dir ∧ 0 < (s.inode d).nlink

instance (s : Tree) (d : ℕ) : Decidable (s.Live d) := inferInstanceAs (Decidable (_ ∧ _))

end Tree

/-- Whether an entry names `n`, other than as `.`. -/
def Dirent.names (de : Dirent) (n : ℕ) : ℕ := if de.inum = n ∧ de.name ≠ dot then 1 else 0

namespace Tree

/-- The entries of `d` that name `n`. -/
def row (s : Tree) (d n : ℕ) : ℕ := ∑ k ∈ range (s.entries d), (s.ents d k).names n

/-- The same, if `d` has a link. -/
def weight (s : Tree) (d n : ℕ) : ℕ := if s.Live d then s.row d n else 0

/-- The entries that name `n` in directories with a link. -/
def links (ninodes : ℕ) (s : Tree) (n : ℕ) : ℕ := ∑ d ∈ range ninodes, s.weight d n

/-- Entry `k` of `d` names a directory below it. -/
def IsSubdir (s : Tree) (d k : ℕ) : Prop := 2 ≤ k ∧ (s.ents d k).inum ≠ 0 ∧ (s.inode (s.ents d k).inum).type = .dir

instance (s : Tree) (d k : ℕ) : Decidable (s.IsSubdir d k) := inferInstanceAs (Decidable (_ ∧ _ ∧ _))

/-- The directories below `d`. -/
def subdirs (s : Tree) (d : ℕ) : ℕ := ∑ k ∈ range (s.entries d), if s.IsSubdir d k then 1 else 0

end Tree

/-- The link counts agree with the entries, up to an excess `x` of some inodes that are not directories; the directories with a link
are those of a tree, in which `..` is the directory above; one without a link is empty. -/
structure Shape (ninodes : ℕ) (x : ℕ → ℕ) (s : Tree) : Prop where
  alloc : ∀ {n}, (s.inode n).type ≠ .none → 0 < n ∧ n < ninodes
  nlink : ∀ {n}, (s.inode n).type ≠ .none → (s.inode n).nlink = s.links ninodes n + x n
  free : ∀ {n}, 0 < n → (s.inode n).type = .none → (s.inode n).nlink = 0 ∧ s.links ninodes n = 0
  excess : ∀ {n}, x n ≠ 0 → (s.inode n).type ≠ .none ∧ (s.inode n).type ≠ .dir
  size : ∀ {d}, (s.inode d).type = .dir → s.entries d * sizeofDirent = (s.inode d).size
  dots : ∀ {d}, s.Live d →
    2 ≤ s.entries d ∧ s.ents d 0 = ⟨dot, d⟩ ∧ (s.ents d 1).name = dotdot ∧ (s.ents d 1).inum ≠ 0
  named : ∀ {d k}, s.Live d → 2 ≤ k → k < s.entries d → (s.ents d k).inum ≠ 0 →
    (s.ents d k).name ≠ dot ∧ (s.ents d k).name ≠ dotdot
  dead : ∀ {d k}, (s.inode d).type = .dir → ¬ s.Live d → k < s.entries d → (s.ents d k).inum ≠ 0 →
    (s.ents d k).name = dot ∨ (s.ents d k).name = dotdot
  below : ∀ {d}, s.Live d → (s.inode d).nlink = 1 + s.subdirs d
  parent : ∀ {d k}, s.Live d → k < s.entries d → s.IsSubdir d k → (s.ents (s.ents d k).inum 1).inum = d
  root : s.Live ROOTINO ∧ ∀ {d k}, s.Live d → 2 ≤ k → k < s.entries d → (s.ents d k).inum ≠ ROOTINO

variable {ninodes r m size : ℕ} {x : ℕ → ℕ} {s s' : Tree} {n d k : ℕ} {x' : ℕ → ℕ} {de : Dirent}

/-! ## Rows -/

/-- If only the weights of one directory change, so do the sums. -/
theorem links_change (hd : d < ninodes) (hoff : ∀ e < ninodes, e ≠ d → s'.weight e n = s.weight e n) :
    s'.links ninodes n + s.weight d n = s.links ninodes n + s'.weight d n :=
  sum_change (mem_range.mpr hd) fun e he hne => hoff e (mem_range.mp he) hne

theorem links_congr (hall : ∀ e < ninodes, s'.weight e n = s.weight e n) : s'.links ninodes n = s.links ninodes n :=
  sum_congr rfl fun e he => hall e (mem_range.mp he)

theorem weight_congr (hlive : s'.Live d ↔ s.Live d) (hrow : s.Live d → s'.row d n = s.row d n) :
    s'.weight d n = s.weight d n := by
  unfold Tree.weight
  by_cases hl : s.Live d
  · rw [if_pos hl, if_pos (hlive.mpr hl), hrow hl]
  · rw [if_neg hl, if_neg (mt hlive.mp hl)]

/-- An entry that counts is a link. -/
theorem weight_le_links (hd : d < ninodes) : s.weight d n ≤ s.links ninodes n :=
  single_le_sum (f := fun e => s.weight e n) (fun _ _ => Nat.zero_le _) (mem_range.mpr hd)

theorem names_le_row (hk : k < s.entries d) : (s.ents d k).names n ≤ s.row d n :=
  single_le_sum (f := fun k => (s.ents d k).names n) (fun _ _ => Nat.zero_le _) (mem_range.mpr hk)

section

variable (hs : Shape ninodes x s) (hl : s.Live d)
include hs hl

theorem Tree.Live.lt : d < ninodes :=
  (hs.alloc (by rw [hl.1]; exact nofun)).2

/-- An inode that a live directory names, other than as `.`, has a link. -/
theorem Shape.links_pos (hk : k < s.entries d) (hname : (s.ents d k).name ≠ dot) :
    0 < s.links ninodes (s.ents d k).inum := by
  have h1 : (s.ents d k).names (s.ents d k).inum = 1 := if_pos ⟨rfl, hname⟩
  have h2 := names_le_row (n := (s.ents d k).inum) hk
  have h3 := weight_le_links (s := s) (n := (s.ents d k).inum) (Tree.Live.lt hs hl)
  rw [Tree.weight, if_pos hl] at h3
  omega

/-- So it is allocated. -/
theorem Shape.named_alloc (hk : k < s.entries d) (hname : (s.ents d k).name ≠ dot)
    (hn : (s.ents d k).inum ≠ 0) :
    (s.inode (s.ents d k).inum).type ≠ .none ∧ 0 < (s.inode (s.ents d k).inum).nlink := by
  have hpos := hs.links_pos hl hk hname
  have htype : (s.inode (s.ents d k).inum).type ≠ .none := by
    intro hf
    have := (hs.free (by omega) hf).2
    omega
  have hnl := hs.nlink htype
  exact ⟨htype, by omega⟩

theorem Shape.live_of_named (hk : k < s.entries d) (hsub : s.IsSubdir d k) :
    s.Live (s.ents d k).inum :=
  ⟨hsub.2.2, (hs.named_alloc hl hk (hs.named hl hsub.1 hk hsub.2.1).1 hsub.2.1).2⟩

end

/-! ## Changes to inodes -/

/-- What is asked of an inode by itself. -/
structure InodeOk (ninodes : ℕ) (x : ℕ → ℕ) (links : ℕ) (s : Tree) (n : ℕ) : Prop where
  alloc : (s.inode n).type ≠ .none → (0 < n ∧ n < ninodes) ∧ (s.inode n).nlink = links + x n
  free : 0 < n → (s.inode n).type = .none → (s.inode n).nlink = 0 ∧ links = 0
  excess : x n ≠ 0 → (s.inode n).type ≠ .none ∧ (s.inode n).type ≠ .dir
  size : (s.inode n).type = .dir → s.entries n * sizeofDirent = (s.inode n).size
  dead : (s.inode n).type = .dir → ¬ s.Live n → ∀ k < s.entries n, (s.ents n k).inum ≠ 0 →
    (s.ents n k).name = dot ∨ (s.ents n k).name = dotdot

theorem Shape.inodeOk (hs : Shape ninodes x s) : InodeOk ninodes x (s.links ninodes n) s n where
  alloc := fun hn => ⟨hs.alloc hn, hs.nlink hn⟩
  free := hs.free
  excess := hs.excess
  size := hs.size
  dead := fun hd hl _ hk => hs.dead hd hl hk

theorem InodeOk.congr {links : ℕ} (h : InodeOk ninodes x links s n) (htype : (s'.inode n).type = (s.inode n).type)
    (hnlink : (s'.inode n).nlink = (s.inode n).nlink) (hsize : (s'.inode n).size = (s.inode n).size)
    (hents : s'.ents n = s.ents n) (hx : x' n = x n) : InodeOk ninodes x' links s' n := by
  obtain ⟨halloc, hfree, hexcess, hwhole, hdead⟩ := h
  constructor
  all_goals simpa only [Tree.Live, Tree.entries, htype, hnlink, hsize, hents, hx]

/-- The live directories stay as they are, and what they name stays a directory, or not one. -/
theorem Shape.retype (hs : Shape ninodes x s)
    (hlive : ∀ d, s.Live d → (s'.inode d).type = .dir ∧ (s'.inode d).nlink = (s.inode d).nlink ∧
      (s'.inode d).size = (s.inode d).size ∧ s'.ents d = s.ents d)
    (hback : ∀ d, s'.Live d → s.Live d)
    (hdir : ∀ m, 0 < s.links ninodes m → ((s'.inode m).type = .dir ↔ (s.inode m).type = .dir))
    (hok : ∀ n, InodeOk ninodes x' (s.links ninodes n) s' n) : Shape ninodes x' s' := by
  have hiff : ∀ d, s'.Live d ↔ s.Live d := fun d =>
    ⟨hback d, fun hl => ⟨(hlive d hl).1, by rw [(hlive d hl).2.1]; exact hl.2⟩⟩
  have hentries : ∀ {d}, s.Live d → s'.entries d = s.entries d := fun {d} hl => by
    rw [Tree.entries, Tree.entries, (hlive d hl).2.2.1]
  have hlinks : ∀ n, s'.links ninodes n = s.links ninodes n := fun n =>
    links_congr fun d _ => weight_congr (hiff d) fun hl => by rw [Tree.row, Tree.row, (hlive d hl).2.2.2, hentries hl]
  have hsub : ∀ {d k}, s.Live d → k < s.entries d → (s'.IsSubdir d k ↔ s.IsSubdir d k) := by
    intro d k hl hk
    rw [Tree.IsSubdir, Tree.IsSubdir, (hlive d hl).2.2.2]
    refine and_congr_right fun h2 => and_congr_right fun hn => ?_
    exact hdir _ (hs.links_pos hl hk (hs.named hl h2 hk hn).1)
  refine
    { alloc := fun {n} hn => ((hok n).alloc hn).1
      nlink := fun {n} hn => by rw [hlinks]; exact ((hok n).alloc hn).2
      free := fun {n} h0 hn => by rw [hlinks]; exact (hok n).free h0 hn
      excess := fun {n} hn => (hok n).excess hn
      size := fun {d} hd => (hok d).size hd
      dots := fun {d} hl => ?_
      named := fun {d k} hl h2 hk => ?_
      dead := fun {d k} hd hl hk => (hok d).dead hd hl k hk
      below := fun {d} hl => ?_
      parent := fun {d k} hl hk h => ?_
      root := ⟨(hiff _).mpr hs.root.1, fun {d k} hl h2 hk => ?_⟩ }
  · have hl := hback d hl
    rw [(hlive d hl).2.2.2, hentries hl]
    exact hs.dots hl
  · have hl := hback d hl
    rw [hentries hl] at hk
    rw [(hlive d hl).2.2.2]
    exact hs.named hl h2 hk
  · have hl := hback d hl
    rw [(hlive d hl).2.1, hs.below hl, Tree.subdirs, Tree.subdirs, hentries hl]
    congr 2
    refine sum_congr rfl fun k hk => ?_
    simp only [hsub hl (mem_range.mp hk)]
  · have hl := hback d hl
    rw [hentries hl] at hk
    have hsub' := (hsub hl hk).mp h
    rw [(hlive d hl).2.2.2, (hlive _ (hs.live_of_named hl hk hsub')).2.2.2]
    exact hs.parent hl hk hsub'
  · have hl := hback d hl
    rw [hentries hl] at hk
    rw [(hlive d hl).2.2.2]
    exact hs.root.2 hl h2 hk

/-- One inode that is not a live directory, before or after, changes. -/
theorem Shape.setInode (hs : Shape ninodes x s) {e : Dinode} {f : ℕ → Dirent} (hx : ∀ m ≠ n, x' m = x m)
    (hl : ¬ s.Live n) (hl' : ¬ (e.type = .dir ∧ 0 < e.nlink))
    (hdir : 0 < s.links ninodes n → (e.type = .dir ↔ (s.inode n).type = .dir))
    (hok : InodeOk ninodes x' (s.links ninodes n) { s with inode := update s.inode n e, ents := update s.ents n f } n) :
    Shape ninodes x' { s with inode := update s.inode n e, ents := update s.ents n f } := by
  refine hs.retype (fun d hd => ?_) (fun d hd => ?_) (fun m hm => ?_) (fun m => ?_)
  · have hne : d ≠ n := by
      rintro rfl
      exact hl hd
    show (update s.inode n e d).type = .dir ∧ (update s.inode n e d).nlink = _ ∧ (update s.inode n e d).size = _ ∧
      update s.ents n f d = _
    rw [update_of_ne hne, update_of_ne hne]
    exact ⟨hd.1, rfl, rfl, rfl⟩
  · by_cases hne : d = n
    · rw [hne] at hd
      have hd' : e.type = .dir ∧ 0 < e.nlink := by simpa [Tree.Live] using hd
      exact absurd hd' hl'
    · simpa [Tree.Live, update_of_ne hne] using hd
  · show (update s.inode n e m).type = .dir ↔ _
    by_cases hne : m = n
    · rw [hne, update_self]
      exact hdir (hne ▸ hm)
    · rw [update_of_ne hne]
  · by_cases hne : m = n
    · rw [hne]
      exact hok
    · refine hs.inodeOk.congr ?_ ?_ ?_ ?_ (hx m hne)
      all_goals simp only [update_of_ne hne]

/-- Inodes keep their type, link count and size. -/
theorem Shape.congr (hs : Shape ninodes x s) (hents : s'.ents = s.ents)
    (hinode : ∀ n, (s'.inode n).type = (s.inode n).type ∧ (s'.inode n).nlink = (s.inode n).nlink ∧
      (s'.inode n).size = (s.inode n).size) : Shape ninodes x s' := by
  have hlive : ∀ d, s'.Live d ↔ s.Live d := fun d => by rw [Tree.Live, Tree.Live, (hinode d).1, (hinode d).2.1]
  refine hs.retype (fun d hl => ?_) (fun d hl => (hlive d).mp hl) (fun m _ => by rw [(hinode m).1]) fun n =>
    hs.inodeOk.congr (hinode n).1 (hinode n).2.1 (hinode n).2.2 (congrFun hents n) rfl
  rw [(hinode d).1, hents]
  exact ⟨hl.1, (hinode d).2.1, (hinode d).2.2, rfl⟩

section

variable {e : Dinode} {f : ℕ → Dirent}

/-- An inode without links is freed. -/
theorem Shape.freeInode (hs : Shape ninodes x s) (h0 : (s.inode n).nlink = 0) (he : e.type = .none) (he0 : e.nlink = 0) :
    Shape ninodes x { s with inode := update s.inode n e, ents := update s.ents n f } := by
  have hlinks : 0 < n → s.links ninodes n = 0 ∧ x n = 0 := by
    intro hpos
    by_cases hn : (s.inode n).type = .none
    · refine ⟨(hs.free hpos hn).2, ?_⟩
      by_contra hne
      exact (hs.excess hne).1 hn
    · have hnl := hs.nlink hn
      omega
  have hx : x n = 0 := by
    by_contra hne
    have hpos := (hs.alloc (hs.excess hne).1).1
    exact hne (hlinks hpos).2
  refine hs.setInode (fun _ _ => rfl) (fun hl => ?_) (fun hl => ?_) (fun hpos => ?_) ⟨?_, ?_, ?_, ?_, ?_⟩
  · have := hl.2
    omega
  · rw [he] at hl
    cases hl.1
  · rw [he]
    refine iff_of_false nofun fun hd => ?_
    have := hlinks (hs.alloc (by rw [hd]; exact nofun)).1
    omega
  · simp [he]
  · intro hpos _
    simp only [update_self]
    exact ⟨he0, (hlinks hpos).1⟩
  · intro hne
    exact absurd hx hne
  · simp [he]
  · simp [he]

/-- A free inode is allocated, without a link. -/
theorem Shape.allocInode (hs : Shape ninodes x s) (hn : (s.inode n).type = .none) (hlt : 0 < n ∧ n < ninodes)
    (he0 : e.nlink = 0) (hsize : e.type = .dir → e.size / sizeofDirent * sizeofDirent = e.size)
    (hdots : ∀ k < e.size / sizeofDirent, (f k).inum ≠ 0 → (f k).name = dot ∨ (f k).name = dotdot) :
    Shape ninodes x { s with inode := update s.inode n e, ents := update s.ents n f } := by
  obtain ⟨-, hlinks⟩ := hs.free hlt.1 hn
  have hx : x n = 0 := by
    by_contra hne
    exact (hs.excess hne).1 hn
  refine hs.setInode (fun _ _ => rfl) (fun hl => ?_) (fun hl => ?_) (fun hpos => ?_) ⟨?_, ?_, ?_, ?_, ?_⟩
  · rw [hl.1] at hn
    cases hn
  · have := hl.2
    omega
  · omega
  · intro _
    simp only [update_self, hlinks, hx, he0]
    exact ⟨hlt, rfl⟩
  · intro _ _
    simp only [update_self]
    exact ⟨he0, hlinks⟩
  · intro hne
    exact absurd hx hne
  · intro hd
    simp only [Tree.entries, update_self] at hd ⊢
    exact hsize hd
  · intro _ _ k hk
    simp only [Tree.entries, update_self] at hk ⊢
    exact hdots k hk

/-- An inode that is not a directory gets more or fewer links than it has entries. -/
theorem Shape.setExcess (hs : Shape ninodes x s) (hn : (s.inode n).type ≠ .none) (hnd : (s.inode n).type ≠ .dir)
    (he : e.type = (s.inode n).type) (hnl : e.nlink + x n = (s.inode n).nlink + r) :
    Shape ninodes (update x n r) { s with inode := update s.inode n e, ents := update s.ents n f } := by
  have hold := hs.nlink hn
  refine hs.setInode (fun m hm => update_of_ne hm _ _) (fun hl => hnd hl.1) (fun hl => hnd (he ▸ hl.1)) (fun _ => by rw [he])
    ⟨?_, ?_, ?_, ?_, ?_⟩
  · intro _
    simp only [update_self]
    exact ⟨hs.alloc hn, by omega⟩
  · intro _ hf
    simp only [update_self, he] at hf
    exact absurd hf hn
  · intro _
    simp only [update_self, he]
    exact ⟨hn, hnd⟩
  · intro hd
    simp only [update_self, he] at hd
    exact absurd hd hnd
  · intro hd
    simp only [update_self, he] at hd
    exact absurd hd hnd

end

/-! ## Changes to entries -/

/-- Where an entry is written: over another one, or at the end. -/
def Slot (s : Tree) (d k size : ℕ) : Prop :=
  k < s.entries d ∧ size = (s.inode d).size ∨ k = s.entries d ∧ size = (s.inode d).size + sizeofDirent

/-- Entry `k` of `d` has been written, inodes keep their types, and their sizes otherwise; link counts may have changed. -/
structure Written (s s' : Tree) (d k size : ℕ) (de : Dirent) : Prop where
  slot : Slot s d k size
  isDir : (s.inode d).type = .dir
  whole : s.entries d * sizeofDirent = (s.inode d).size
  type : ∀ e, (s'.inode e).type = (s.inode e).type
  size : (s'.inode d).size = size
  other : ∀ e ≠ d, (s'.inode e).size = (s.inode e).size
  ents : s'.ents = update s.ents d (update (s.ents d) k de)

/-- What the entry that is written over names. -/
def overwritten (s : Tree) (d k n : ℕ) : ℕ := if k < s.entries d then (s.ents d k).names n else 0

/-- Whether the entry that is written over names a directory. -/
def oldSubdir (s : Tree) (d k : ℕ) : ℕ := if k < s.entries d ∧ s.IsSubdir d k then 1 else 0

namespace Written

variable {size : ℕ} {de : Dirent} {e j : ℕ}

section Entry

variable (hw : Written s s' d k size de)

include hw

theorem entries_of_ne (he : e ≠ d) : s'.entries e = s.entries e := by
  rw [Tree.entries, Tree.entries, hw.other e he]

theorem ents_of_ne (he : e ≠ d) : s'.ents e = s.ents e := by
  rw [hw.ents, update_of_ne he]

theorem ents_self : s'.ents d = update (s.ents d) k de := by
  rw [hw.ents, update_self]

theorem ents_of_index_ne (hj : j ≠ k) : s'.ents e j = s.ents e j := by
  by_cases he : e = d
  · rw [he, hw.ents_self, update_of_ne hj]
  · rw [hw.ents_of_ne he]

theorem entries_self : s'.entries d * sizeofDirent = size ∧ s'.entries d = if k < s.entries d then s.entries d else s.entries d
    + 1 := by
  have h16 : 0 < sizeofDirent := by decide
  rw [show s'.entries d = size / sizeofDirent by rw [Tree.entries, hw.size]]
  rcases hw.slot with ⟨hlt, hsize⟩ | ⟨heq, hsize⟩
  · rw [if_pos hlt, hsize]
    exact ⟨hw.whole, rfl⟩
  · rw [if_neg (by omega), hsize, ← hw.whole, ← Nat.succ_mul, Nat.mul_div_cancel _ h16]
    exact ⟨rfl, rfl⟩

/-- An entry afterwards is the one that has been written, or an old one. -/
theorem cases (hj : j < s'.entries e) : (e = d ∧ j = k ∧ s'.ents e j = de) ∨ ((e = d → j ≠ k) ∧ j < s.entries e ∧ s'.ents e j =
    s.ents e j) := by
  by_cases he : e = d
  · subst he
    rw [hw.entries_self.2] at hj
    rw [hw.ents_self]
    by_cases hjk : j = k
    · exact .inl ⟨rfl, hjk, by rw [hjk, update_self]⟩
    · refine .inr ⟨fun _ => hjk, ?_, update_of_ne hjk _ _⟩
      rcases hw.slot with ⟨hlt, -⟩ | ⟨heq, -⟩
      · rw [if_pos hlt] at hj
        exact hj
      · rw [if_neg (by omega)] at hj
        omega
  · rw [hw.entries_of_ne he] at hj
    exact .inr ⟨fun h => absurd h he, hj, by rw [hw.ents_of_ne he]⟩

/-- A sum over the entries after one is written. -/
theorem sum_entries {f g : ℕ → ℕ} (hoff : ∀ j ≠ k, g j = f j) : ∑ j ∈ range (s'.entries d), g j + (if k < s.entries d then f k
    else 0) = ∑ j ∈ range (s.entries d), f j + g k := by
  rw [hw.entries_self.2]
  rcases hw.slot with ⟨hlt, -⟩ | ⟨heq, -⟩
  · rw [if_pos hlt, if_pos hlt]
    exact sum_change (mem_range.mpr hlt) fun j _ hj => hoff j hj
  · rw [if_neg (by omega), if_neg (by omega), sum_range_succ, heq]
    have hsum : ∑ j ∈ range (s.entries d), g j = ∑ j ∈ range (s.entries d), f j :=
      sum_congr rfl fun j hj => hoff j (by have := mem_range.mp hj; omega)
    rw [hsum]
    omega

theorem row : s'.row d n + overwritten s d k n = s.row d n + de.names n := by
  have hsum := hw.sum_entries (f := fun j => (s.ents d j).names n) (g := fun j => (s'.ents d j).names n) fun j hj => by
    rw [hw.ents_of_index_ne hj]
  simp only [hw.ents_self, update_self] at hsum
  rw [Tree.row, Tree.row, hw.ents_self]
  exact hsum

theorem row_of_ne (he : e ≠ d) : s'.row e n = s.row e n := by
  rw [Tree.row, Tree.row, hw.entries_of_ne he, hw.ents_of_ne he]

theorem isSubdir (hj : e = d → j ≠ k) : s'.IsSubdir e j ↔ s.IsSubdir e j := by
  have hents : s'.ents e j = s.ents e j := by
    by_cases he : e = d
    · exact hw.ents_of_index_ne (hj he)
    · rw [hw.ents_of_ne he]
  rw [Tree.IsSubdir, Tree.IsSubdir, hents, hw.type]

theorem subdirs_of_ne (he : e ≠ d) : s'.subdirs e = s.subdirs e := by
  rw [Tree.subdirs, Tree.subdirs, hw.entries_of_ne he]
  simp only [hw.isSubdir fun h => absurd h he]

theorem subdirs (h2 : 2 ≤ k) : s'.subdirs d + oldSubdir s d k = s.subdirs d + if de.inum ≠ 0 ∧ (s.inode de.inum).type = .dir
    then 1 else 0 := by
  have hsum := hw.sum_entries (f := fun j => if s.IsSubdir d j then 1 else 0)
    (g := fun j => if s'.IsSubdir d j then 1 else 0) fun j hj => by simp only [hw.isSubdir fun _ => hj]
  have hnew : s'.IsSubdir d k ↔ de.inum ≠ 0 ∧ (s.inode de.inum).type = .dir := by
    rw [Tree.IsSubdir, hw.ents_self, update_self, hw.type, and_iff_right h2]
  have hold : oldSubdir s d k = if k < s.entries d then if s.IsSubdir d k then 1 else 0 else 0 := by
    rw [oldSubdir]
    by_cases hlt : k < s.entries d <;> simp [hlt]
  rw [Tree.subdirs, Tree.subdirs, hold, hsum]
  simp only [hnew]

/-- The links, if the same directories stay live, with the possible exception of `m`. -/
theorem links_toggle (hd : d < ninodes) (hm : m < ninodes) (hmd : m ≠ d) (hl : s.Live d) (hl' : s'.Live d) (hsame : ∀ e,
    e ≠ m → (s'.Live e ↔ s.Live e)) : s'.links ninodes n + overwritten s d k n + s.weight m n = s.links ninodes n + de.names n +
    s'.weight m n := by
  -- first the weight of `m` changes, then that of `d`
  have h1 := sum_change (f := fun e => s.weight e n) (g := update (fun e => s.weight e n) m (s'.weight m n))
    (mem_range.mpr hm) fun j _ hj => update_of_ne hj _ _
  have h2 := sum_change (f := update (fun e => s.weight e n) m (s'.weight m n)) (g := fun e => s'.weight e n)
    (mem_range.mpr hd) fun j _ hj => by
      by_cases hjm : j = m
      · rw [hjm, update_self]
      · rw [update_of_ne hjm]
        exact weight_congr (hsame j hjm) fun _ => hw.row_of_ne hj
  have hrow := hw.row (n := n)
  rw [update_self] at h1
  rw [update_of_ne (Ne.symm hmd)] at h2
  have hwd : s.weight d n = s.row d n ∧ s'.weight d n = s'.row d n := ⟨if_pos hl, if_pos hl'⟩
  simp only [Tree.links]
  omega

/-- The links, if the same directories stay live. -/
theorem links (hd : d < ninodes) (hl : s.Live d) (hsame : ∀ e, s'.Live e ↔ s.Live e) : s'.links ninodes n + overwritten s d k n
    = s.links ninodes n + de.names n := by
  have hchange : s'.links ninodes n + s.weight d n = s.links ninodes n + s'.weight d n :=
    links_change hd fun e _ he => weight_congr (hsame e) fun _ => hw.row_of_ne he
  rw [Tree.weight, Tree.weight, if_pos hl, if_pos ((hsame d).mpr hl)] at hchange
  have hrow := hw.row (n := n)
  omega

end Entry

end Written

/-- A tree with an entry written is in shape if the link counts are right and the directories that begin or cease to be live have no
entries but `.` and `..`. -/
theorem Shape.rewrite (hs : Shape ninodes x s) (hw : Written s s' d k size de)
    (hl : s.Live d) (hl' : s'.Live d) (h2 : 2 ≤ k)
    (hborn : ∀ e, s'.Live e → s.Live e ∨ e ≠ d ∧ e ≠ ROOTINO ∧ s.entries e = 2 ∧ s.ents e 0 = ⟨dot, e⟩ ∧
      s.ents e 1 = ⟨dotdot, d⟩)
    (hgone : ∀ e, s.Live e → ¬ s'.Live e → e ≠ d ∧ e ≠ ROOTINO ∧ ∀ j, 2 ≤ j → j < s.entries e → (s.ents e j).inum = 0)
    (hde : de.inum ≠ 0 → de.name ≠ dot ∧ de.name ≠ dotdot ∧ de.inum ≠ ROOTINO ∧
      ((s.inode de.inum).type = .dir → (s.ents de.inum 1).inum = d))
    (hx' : ∀ {n}, x' n ≠ 0 → (s.inode n).type ≠ .none ∧ (s.inode n).type ≠ .dir)
    (hnlink : ∀ n, (s.inode n).type ≠ .none → (s'.inode n).nlink = s'.links ninodes n + x' n)
    (hfree : ∀ n, 0 < n → (s.inode n).type = .none → (s'.inode n).nlink = 0 ∧ s'.links ninodes n = 0)
    (hbelow : ∀ e, s'.Live e → (s'.inode e).nlink = 1 + s'.subdirs e) : Shape ninodes x' s' := by
  have hd0 : d ≠ 0 := by
    have := (hs.alloc (n := d) (by rw [hl.1]; exact nofun)).1
    omega
  refine
    { alloc := fun {n} hn => hs.alloc (hw.type n ▸ hn)
      nlink := fun {n} hn => hnlink n (hw.type n ▸ hn)
      free := fun {n} h0 hn => hfree n h0 (hw.type n ▸ hn)
      excess := fun {n} hn => by rw [hw.type]; exact hx' hn
      size := fun {e} he => ?_
      dots := fun {e} he => ?_
      named := fun {e j} he hj hlt hne => ?_
      dead := fun {e j} hd he hlt hne => ?_
      below := fun {e} he => hbelow e he
      parent := fun {e j} he hlt hsub => ?_
      root := ⟨?_, fun {e j} he hj hlt => ?_⟩ }
  · by_cases hed : e = d
    · rw [hed, hw.entries_self.1, hw.size]
    · rw [hw.type] at he
      rw [hw.entries_of_ne hed, hw.other e hed]
      exact hs.size he
  · have h01 : s'.ents e 0 = s.ents e 0 ∧ s'.ents e 1 = s.ents e 1 :=
      ⟨hw.ents_of_index_ne (by omega), hw.ents_of_index_ne (by omega)⟩
    rw [h01.1, h01.2]
    rcases hborn e he with hold | ⟨hed, -, h2e, h0, h1⟩
    · obtain ⟨h2e, h0, h1, h1n⟩ := hs.dots hold
      refine ⟨?_, h0, h1, h1n⟩
      by_cases hed : e = d
      · rw [hed] at h2e ⊢
        rw [hw.entries_self.2]
        split_ifs <;> omega
      · rw [hw.entries_of_ne hed]
        exact h2e
    · rw [hw.entries_of_ne hed, h2e, h0, h1]
      exact ⟨le_refl 2, rfl, rfl, hd0⟩
  · rcases hw.cases hlt with ⟨-, -, hnew⟩ | ⟨-, hjlt, hsame⟩
    · rw [hnew] at hne ⊢
      exact ⟨(hde hne).1, (hde hne).2.1⟩
    · rw [hsame] at hne ⊢
      rcases hborn e he with hold | ⟨-, -, h2e, -⟩
      · exact hs.named hold hj hjlt hne
      · omega
  · rw [hw.type] at hd
    rcases hw.cases hlt with ⟨rfl, -, -⟩ | ⟨-, hjlt, hsame⟩
    · exact absurd hl' he
    · rw [hsame] at hne ⊢
      by_cases hold : s.Live e
      · obtain ⟨-, -, hz⟩ := hgone e hold he
        obtain ⟨-, h0, h1, -⟩ := hs.dots hold
        match j with
        | 0 => exact .inl (by rw [h0])
        | 1 => exact .inr h1
        | j + 2 => exact absurd (hz (j + 2) (by omega) hjlt) hne
      · exact hs.dead hd hold hjlt hne
  · have hone : ∀ m, s'.ents m 1 = s.ents m 1 := fun m => hw.ents_of_index_ne (by omega)
    rw [hone]
    rcases hw.cases hlt with ⟨rfl, rfl, hnew⟩ | ⟨hjk, hjlt, hsame⟩
    · rw [Tree.IsSubdir, hnew, hw.type] at hsub
      rw [hnew]
      exact (hde hsub.2.1).2.2.2 hsub.2.2
    · rw [hw.isSubdir hjk] at hsub
      rw [hsame]
      rcases hborn e he with hold | ⟨-, -, h2e, -⟩
      · exact hs.parent hold hjlt hsub
      · have := hsub.1
        omega
  · by_contra hnot
    exact (hgone _ hs.root.1 hnot).2.1 rfl
  · rcases hw.cases hlt with ⟨-, -, hnew⟩ | ⟨-, hjlt, hsame⟩
    · rw [hnew]
      by_cases hz : de.inum = 0
      · rw [hz]
        decide
      · exact (hde hz).2.2.1
    · rw [hsame]
      rcases hborn e he with hold | ⟨-, -, h2e, -⟩
      · exact hs.root.2 hold hj hjlt
      · omega

/-- Entry `k` of `d` written, with the size and the blocks that `writei` leaves. -/
def Tree.setEntry (s : Tree) (d k size : ℕ) (addrs : Fin (NDIRECT + 1) → ℕ) (de : Dirent) : Tree :=
  { s with
    inode := update s.inode d { s.inode d with size := size, addrs := addrs }
    ents := update s.ents d (update (s.ents d) k de) }

def Tree.setNlink (s : Tree) (n : ℕ) (v : ℤ) : Tree := s.setInode n { s.inode n with nlink := v }

section Entries

variable {size : ℕ} {addrs : Fin (NDIRECT + 1) → ℕ} {de : Dirent} {v : ℤ} {e : ℕ}

theorem written_setEntry (hd : (s.inode d).type = .dir) (hwhole : s.entries d * sizeofDirent = (s.inode d).size)
    (hk : Slot s d k size) : Written s (s.setEntry d k size addrs de) d k size de where
  slot := hk
  isDir := hd
  whole := hwhole
  type := update_keeps (g := Dinode.type) (by rfl)
  size := by simp [Tree.setEntry]
  other := by
    intro e he
    simp [Tree.setEntry, update_of_ne he]
  ents := rfl

theorem setNlink_type : ((s.setNlink n v).inode e).type = (s.inode e).type :=
  update_keeps (g := Dinode.type) (by rfl) e

theorem setNlink_size : ((s.setNlink n v).inode e).size = (s.inode e).size :=
  update_keeps (g := Dinode.size) (by rfl) e

@[simp] theorem setNlink_entries : (s.setNlink n v).entries e = s.entries e := by
  rw [Tree.entries, Tree.entries, setNlink_size]

theorem setNlink_setNlink {w : ℤ} : (s.setNlink n v).setNlink n w = s.setNlink n w := by
  simp [Tree.setNlink, Tree.setInode, update_idem]

theorem setNlink_eq_self (h : (s.inode n).nlink = v) : s.setNlink n v = s := by
  subst h
  simp [Tree.setNlink, Tree.setInode]

theorem setNlink_setEntry :
    (s.setEntry d k size addrs de).setNlink n v = (s.setNlink n v).setEntry d k size addrs de := by
  by_cases hdn : d = n
  · simp [Tree.setNlink, Tree.setInode, Tree.setEntry, hdn]
  · simp [Tree.setNlink, Tree.setInode, Tree.setEntry, update_of_ne hdn, update_of_ne (Ne.symm hdn), update_comm hdn]

theorem setEntry_nlink : ((s.setEntry d k size addrs de).inode e).nlink = (s.inode e).nlink :=
  update_keeps (g := Dinode.nlink) (by rfl) e

theorem setNlink_nlink : ((s.setNlink n v).inode n).nlink = v := by
  simp [Tree.setNlink, Tree.setInode]

theorem setNlink_nlink_of_ne (he : e ≠ n) : ((s.setNlink n v).inode e).nlink = (s.inode e).nlink := by
  simp [Tree.setNlink, Tree.setInode, update_of_ne he]

theorem Written.setNlink (hw : Written s s' d k size de) : Written s (s'.setNlink n v) d k size de where
  slot := hw.slot
  isDir := hw.isDir
  whole := hw.whole
  type := fun e => setNlink_type.trans (hw.type e)
  size := setNlink_size.trans hw.size
  other := fun e he => setNlink_size.trans (hw.other e he)
  ents := hw.ents

/-- An entry is written that names no directory, over one that names none. -/
theorem Shape.setEntry (hs : Shape ninodes x s) (hl : s.Live d) (hk : Slot s d k size) (h2 : 2 ≤ k)
    (hold : k < s.entries d → ¬ s.IsSubdir d k)
    (hde : de.inum ≠ 0 → de.name ≠ dot ∧ de.name ≠ dotdot ∧ (s.inode de.inum).type ≠ .dir)
    (hbal : ∀ n ≠ 0, de.names n + x' n = overwritten s d k n + x n)
    (hx' : ∀ {n}, x' n ≠ 0 → (s.inode n).type ≠ .none ∧ (s.inode n).type ≠ .dir) :
    Shape ninodes x' (s.setEntry d k size addrs de) := by
  have hw : Written s (s.setEntry d k size addrs de) d k size de := written_setEntry hl.1 (hs.size hl.1) hk
  have hlive : ∀ e, (s.setEntry d k size addrs de).Live e ↔ s.Live e := fun e => by
    rw [Tree.Live, Tree.Live, hw.type, setEntry_nlink]
  have hlinks : ∀ n ≠ 0, (s.setEntry d k size addrs de).links ninodes n + x' n = s.links ninodes n + x n := by
    intro n hn
    have h1 := hw.links (n := n) (Tree.Live.lt hs hl) hl hlive
    have h2 := hbal n hn
    omega
  refine hs.rewrite hw hl ((hlive d).mpr hl) h2 (fun e he => .inl ((hlive e).mp he))
    (fun e he hne => absurd ((hlive e).mpr he) hne) (fun hne => ⟨(hde hne).1, (hde hne).2.1, ?_, fun hdir => ?_⟩) hx'
    (fun n hn => ?_) (fun n h0 hn => ?_) (fun e he => ?_)
  · intro hroot
    have htype := (hde hne).2.2
    rw [hroot] at htype
    exact htype hs.root.1.1
  · exact absurd hdir (hde hne).2.2
  · have hn0 := (hs.alloc hn).1
    have := hlinks n (by omega)
    rw [setEntry_nlink, hs.nlink hn]
    omega
  · obtain ⟨hnl, hz⟩ := hs.free h0 hn
    have hxn : x n = 0 := by
      by_contra hne
      exact (hs.excess hne).1 hn
    have := hlinks n (by omega)
    rw [setEntry_nlink]
    exact ⟨hnl, by omega⟩
  · have he' := (hlive e).mp he
    rw [setEntry_nlink, hs.below he']
    by_cases hed : e = d
    · have hsub := hw.subdirs h2
      have hnew : ¬ (de.inum ≠ 0 ∧ (s.inode de.inum).type = .dir) := fun h => (hde h.1).2.2 h.2
      have hold0 : oldSubdir s d k = 0 := if_neg fun h => hold h.1 h.2
      rw [if_neg hnew, hold0] at hsub
      rw [hed]
      omega
    · rw [hw.subdirs_of_ne hed]

end Entries

/-- A free entry is not one of the first two. -/
theorem Shape.two_le (hs : Shape ninodes x s) (hl : s.Live d)
    (hold : k < s.entries d → (s.ents d k).inum = 0) : 2 ≤ k := by
  obtain ⟨h2, h0, -, h1⟩ := hs.dots hl
  by_contra hlt
  have hinum := hold (by omega)
  by_cases hk0 : k = 0
  · have hpos := (hs.alloc (by rw [hl.1]; exact nofun)).1
    rw [hk0, h0] at hinum
    exact hpos.ne' hinum
  · rw [show k = 1 by omega] at hinum
    exact h1 hinum

/-- A name that is not in a live directory is neither `.` nor `..`. -/
theorem Shape.fresh_name (hs : Shape ninodes x s) (hl : s.Live d) {name : Name}
    (hfresh : ∀ k < s.entries d, (s.ents d k).inum ≠ 0 → (s.ents d k).name ≠ name) : name ≠ dot ∧ name ≠ dotdot := by
  obtain ⟨h2, h0, h1, h1'⟩ := hs.dots hl
  have hpos := (hs.alloc (by rw [hl.1]; exact nofun)).1
  constructor
  · rintro rfl
    exact hfresh 0 (by omega) (by rw [h0]; exact hpos.ne') (by rw [h0])
  · rintro rfl
    exact hfresh 1 (by omega) h1' h1

/-- An entry `.` or `..` is written into a directory without a link. -/
theorem Shape.setDots (hs : Shape ninodes x s) (hd : (s.inode d).type = .dir) (h0 : (s.inode d).nlink = 0)
    {addrs : Fin (NDIRECT + 1) → ℕ} (hk : Slot s d k size) (hde : de.name = dot ∨ de.name = dotdot) :
    Shape ninodes x (s.setEntry d k size addrs de) := by
  have hl : ¬ s.Live d := by
    rintro ⟨-, hpos⟩
    omega
  have hw : Written s (s.setEntry d k size addrs de) d k size de := written_setEntry hd (hs.size hd) hk
  have hok := hs.inodeOk (n := d)
  have hne : (s.inode d).type ≠ .none := by
    rw [hd]
    exact nofun
  refine hs.setInode (fun _ _ => rfl) hl (fun h => hl h) (fun _ => iff_of_true hd hd) ⟨?_, ?_, ?_, ?_, ?_⟩
  · intro _
    simpa using hok.alloc hne
  · intro _ hnone
    simp [hd] at hnone
  · intro hx
    simpa using hok.excess hx
  · intro _
    exact hw.entries_self.1.trans hw.size.symm
  · intro _ _ j hj hinum
    obtain ⟨-, -, hent⟩ | ⟨-, hj', hent⟩ := hw.cases hj
    · exact (congrArg (fun x => x.name = dot ∨ x.name = dotdot) hent).mpr hde
    · have hold := hok.dead hd hl j hj' (by rw [← hent]; exact hinum)
      exact (congrArg (fun x => x.name = dot ∨ x.name = dotdot) hent).mpr hold

/-- `setExcess` for a change of the link count alone. -/
theorem Shape.setNlink (hs : Shape ninodes x s) {v : ℤ} (hn : (s.inode n).type ≠ .none) (hnd : (s.inode n).type ≠ .dir)
    (hnl : v + x n = (s.inode n).nlink + r) : Shape ninodes (update x n r) (s.setNlink n v) := by
  have h := hs.setExcess (r := r) (e := { s.inode n with nlink := v }) (f := s.ents n) hn hnd rfl hnl
  rw [update_eq_self] at h
  exact h

/-! ## Directories made and removed -/

/-- What a directory without entries but `.` and `..` names. -/
theorem row_of_empty {p : ℕ} (hm : m ≠ 0) (h2 : 2 ≤ s.entries n) (h0 : s.ents n 0 = ⟨dot, n⟩)
    (h1 : s.ents n 1 = ⟨dotdot, p⟩) (hrest : ∀ j, 2 ≤ j → j < s.entries n → (s.ents n j).inum = 0) :
    s.row n m = if m = p then 1 else 0 := by
  obtain ⟨r, hr⟩ : ∃ r, s.entries n = r + 1 + 1 := ⟨s.entries n - 2, by omega⟩
  have hzero : ∑ j ∈ range r, (s.ents n (j + 1 + 1)).names m = 0 := by
    refine sum_eq_zero fun j hj => ?_
    have hj := mem_range.mp hj
    rw [Dirent.names, hrest (j + 1 + 1) (by omega) (by omega), if_neg fun hc => hm hc.1.symm]
  rw [Tree.row, hr, sum_range_succ', sum_range_succ', hzero, h0, h1]
  have hdd : dotdot ≠ dot := by decide
  simp [Dirent.names, hdd, eq_comm]

/-- Directory `n`, which has no entries but `.` and `..`, gets an entry in `d`, or loses it, and the two link counts change with it. -/
theorem Shape.relink (hs : Shape ninodes x s) (hw : Written s s' d k size de) (hl : s.Live d)
    (hl' : s'.Live d) (h2 : 2 ≤ k) (hn : (s.inode n).type = .dir) (hnd : n ≠ d) (hroot : n ≠ ROOTINO)
    (hdot : s.ents n 0 = ⟨dot, n⟩) (hdotdot : s.ents n 1 = ⟨dotdot, d⟩) (h2n : 2 ≤ s.entries n)
    (hrest : ∀ j, 2 ≤ j → j < s.entries n → (s.ents n j).inum = 0) (hborn : s'.Live n → s.entries n = 2)
    (hde : de.inum ≠ 0 → de.name ≠ dot ∧ de.name ≠ dotdot ∧ de.inum = n)
    (hnl : ∀ e, e ≠ d → e ≠ n → (s'.inode e).nlink = (s.inode e).nlink) (hone : s'.Live n → (s'.inode n).nlink = 1)
    (hbelow : (s'.inode d).nlink + oldSubdir s d k = (s.inode d).nlink + if de.inum ≠ 0 then 1 else 0)
    (hcount : ∀ m ≠ 0, (s'.inode m).nlink + overwritten s d k m + (if m = d ∧ s.Live n then 1 else 0) =
      (s.inode m).nlink + de.names m + if m = d ∧ s'.Live n then 1 else 0) : Shape ninodes x s' := by
  have hnone : (s.inode n).type ≠ .none := by rw [hn]; exact nofun
  have hlive : ∀ e ≠ n, s'.Live e ↔ s.Live e := by
    intro e hen
    by_cases hed : e = d
    · rw [hed]
      exact iff_of_true hl' hl
    · rw [Tree.Live, Tree.Live, hw.type, hnl e hed hen]
  -- the links change as the counts do
  have hlinks : ∀ m ≠ 0, (s'.links ninodes m : ℤ) + (s.inode m).nlink = s.links ninodes m + (s'.inode m).nlink := by
    intro m hm
    have htoggle := hw.links_toggle (n := m) (Tree.Live.lt hs hl) (hs.alloc hnone).2 hnd hl hl' hlive
    have hrow : s.row n m = if m = d then 1 else 0 := row_of_empty hm h2n hdot hdotdot hrest
    have hc := hcount m hm
    rw [Tree.weight, Tree.weight, hw.row_of_ne hnd, hrow] at htoggle
    split_ifs at htoggle hc <;> grind
  refine hs.rewrite hw hl hl' h2 (fun e he => ?_) (fun e he hne => ?_) (fun h0 => ?_) hs.excess (fun m hm => ?_)
    (fun m h0 hm => ?_) (fun e he => ?_)
  · by_cases hen : e = n
    · subst hen
      exact .inr ⟨hnd, hroot, hborn he, hdot, hdotdot⟩
    · exact .inl ((hlive e hen).mp he)
  · obtain rfl : e = n := by
      by_contra hen
      exact hne ((hlive e hen).mpr he)
    exact ⟨hnd, hroot, hrest⟩
  · obtain ⟨hd1, hd2, hinum⟩ := hde h0
    rw [hinum, hdotdot]
    exact ⟨hd1, hd2, hroot, fun _ => rfl⟩
  · have h1 := hlinks m (hs.alloc hm).1.ne'
    have h2 := hs.nlink hm
    omega
  · have hmn : m ≠ n := by
      rintro rfl
      exact hnone hm
    have hmd : m ≠ d := by
      rintro rfl
      rw [hl.1] at hm
      cases hm
    obtain ⟨hz, hlz⟩ := hs.free h0 hm
    have h1 := hlinks m h0.ne'
    rw [hnl m hmd hmn] at h1 ⊢
    exact ⟨hz, by omega⟩
  · by_cases hed : e = d
    · have hsub := hw.subdirs h2
      have hb := hs.below hl
      have hnew : (de.inum ≠ 0 ∧ (s.inode de.inum).type = .dir) ↔ de.inum ≠ 0 :=
        and_iff_left_of_imp fun h0 => by rw [(hde h0).2.2, hn]
      simp only [hnew] at hsub
      rw [hed]
      split_ifs at hsub hbelow <;> omega
    · rw [hw.subdirs_of_ne hed]
      by_cases hen : e = n
      · have hzero : s.subdirs n = 0 := sum_eq_zero fun j hj =>
          if_neg fun hsub => hsub.2.1 (hrest j hsub.1 (mem_range.mp hj))
        rw [hen, hzero, hone (hen ▸ he)]
        rfl
      · rw [hnl e hed hen]
        exact hs.below ((hlive e hen).mp he)

section Dirs

variable {size : ℕ} {addrs : Fin (NDIRECT + 1) → ℕ} {name : Name}

/-- The tree after `mkdir`: the directory above gets an entry and a link. -/
def Tree.mkdir (s : Tree) (d k size : ℕ) (addrs : Fin (NDIRECT + 1) → ℕ) (name : Name) (n : ℕ) : Tree :=
  ((s.setEntry d k size addrs ⟨name, n⟩).setNlink n 1).setNlink d ((s.inode d).nlink + 1)

/-- A directory that has its entries `.` and `..` and no link is put below `d`. -/
theorem Shape.mkdir (hs : Shape ninodes x s) (hl : s.Live d) (hk : Slot s d k size) (h2 : 2 ≤ k)
    (hold : k < s.entries d → (s.ents d k).inum = 0) (hn : (s.inode n).type = .dir) (hdead : ¬ s.Live n)
    (hentries : s.entries n = 2) (hdot : s.ents n 0 = ⟨dot, n⟩) (hdotdot : s.ents n 1 = ⟨dotdot, d⟩)
    (hname : name ≠ dot ∧ name ≠ dotdot) : Shape ninodes x (s.mkdir d k size addrs name n) := by
  have hnd : n ≠ d := by
    rintro rfl
    exact hdead hl
  have hnone : (s.inode n).type ≠ .none := by rw [hn]; exact nofun
  have hn0 : n ≠ 0 := by have := (hs.alloc hnone).1; omega
  have hw : Written s (s.mkdir d k size addrs name n) d k size ⟨name, n⟩ :=
    (written_setEntry hl.1 (hs.size hl.1) hk).setNlink.setNlink
  have hnld : ((s.mkdir d k size addrs name n).inode d).nlink = (s.inode d).nlink + 1 := setNlink_nlink
  have hnln : ((s.mkdir d k size addrs name n).inode n).nlink = 1 := by
    rw [Tree.mkdir, setNlink_nlink_of_ne hnd, setNlink_nlink]
  have hnl : ∀ e, e ≠ d → e ≠ n → ((s.mkdir d k size addrs name n).inode e).nlink = (s.inode e).nlink := by
    intro e hed hen
    rw [Tree.mkdir, setNlink_nlink_of_ne hed, setNlink_nlink_of_ne hen, setEntry_nlink]
  have hliven : (s.mkdir d k size addrs name n).Live n := ⟨by rw [hw.type, hn], by rw [hnln]; decide⟩
  have hlived : (s.mkdir d k size addrs name n).Live d := by
    refine ⟨by rw [hw.type, hl.1], ?_⟩
    have := hl.2
    rw [hnld]
    omega
  have hroot : n ≠ ROOTINO := by
    rintro rfl
    exact hdead hs.root.1
  have hzero : (s.inode n).nlink = 0 := by
    have hnl := hs.nlink hnone
    have hneg : ¬ 0 < (s.inode n).nlink := fun hpos => hdead ⟨hn, hpos⟩
    omega
  have hov : ∀ m ≠ 0, overwritten s d k m = 0 := by
    intro m hm
    rw [overwritten]
    split_ifs with hlt
    · rw [Dirent.names, hold hlt, if_neg fun hc => hm hc.1.symm]
    · rfl
  have hold0 : oldSubdir s d k = 0 := if_neg fun h => h.2.2.1 (hold h.1)
  refine hs.relink hw hl hlived h2 hn hnd hroot hdot hdotdot hentries.ge (fun j hj hlt => by omega) (fun _ => hentries)
    (fun _ => ⟨hname.1, hname.2, rfl⟩) hnl (fun _ => hnln) (by simp [hnld, hold0, hn0]) fun m hm => ?_
  have hnames : (⟨name, n⟩ : Dirent).names m = if m = n then 1 else 0 := by
    simp only [Dirent.names, hname.1, ne_eq, not_false_eq_true, and_true, eq_comm]
  rw [hov m hm, hnames]
  by_cases hmd : m = d
  · simp [hmd, hnd.symm, hnld, hdead, hliven]
  · by_cases hmn : m = n
    · simp [hmn, hnd, hnln, hzero]
    · simp [hmd, hmn, hnl m hmd hmn]

/-- The tree after a directory has been unlinked: the directory above loses the entry and a link. -/
def Tree.rmdir (s : Tree) (d k n : ℕ) : Tree :=
  ((s.setEntry d k (s.inode d).size (s.inode d).addrs ⟨[], 0⟩).setNlink d ((s.inode d).nlink - 1)).setNlink n 0

/-- An empty directory that `d` names has one link, and `d` is above it. -/
theorem Shape.of_empty (hs : Shape ninodes x s) (hl : s.Live d) (hk : k < s.entries d) (hsub : s.IsSubdir d k)
    (hn : (s.ents d k).inum = n) (hempty : ∀ j, 2 ≤ j → j < s.entries n → (s.ents n j).inum = 0) :
    s.Live n ∧ (s.inode n).nlink = 1 ∧ n ≠ d ∧ n ≠ ROOTINO ∧ s.subdirs n = 0 ∧ s.ents n 1 = ⟨dotdot, d⟩ := by
  have hlive : s.Live n := hn ▸ hs.live_of_named hl hk hsub
  have hzero : s.subdirs n = 0 := by
    refine sum_eq_zero fun j hj => if_neg fun hj' => ?_
    exact hj'.2.1 (hempty j hj'.1 (mem_range.mp hj))
  have hbelow := hs.below hlive
  have hparent := hs.parent hl hk hsub
  rw [hn] at hparent
  have hdd := (hs.dots hlive).2.2.1
  refine ⟨hlive, by rw [hbelow, hzero]; rfl, ?_, ?_, hzero, ?_⟩
  · rintro rfl
    exact hsub.2.1 (hempty k hsub.1 hk)
  · rintro rfl
    exact hs.root.2 hl hsub.1 hk hn
  · rw [← hparent, ← hdd]

/-- An empty directory is unlinked. -/
theorem Shape.rmdir (hs : Shape ninodes x s) (hl : s.Live d) (hk : k < s.entries d) (hsub : s.IsSubdir d k)
    (hn : (s.ents d k).inum = n) (hempty : ∀ j, 2 ≤ j → j < s.entries n → (s.ents n j).inum = 0) :
    Shape ninodes x (s.rmdir d k n) ∧ 0 < ((s.rmdir d k n).inode d).nlink := by
  obtain ⟨hliven, hone, hnd, hnroot, hzero, hdotdot⟩ := hs.of_empty hl hk hsub hn hempty
  obtain ⟨h2n, hdot, -, -⟩ := hs.dots hliven
  have hnone : (s.inode n).type ≠ .none := by rw [hliven.1]; exact nofun
  have hn0 : n ≠ 0 := by have := (hs.alloc hnone).1; omega
  have hw : Written s (s.rmdir d k n) d k (s.inode d).size ⟨[], 0⟩ :=
    (written_setEntry hl.1 (hs.size hl.1) (.inl ⟨hk, rfl⟩)).setNlink.setNlink
  have hnln : ((s.rmdir d k n).inode n).nlink = 0 := setNlink_nlink
  have hnld : ((s.rmdir d k n).inode d).nlink = (s.inode d).nlink - 1 := by
    rw [Tree.rmdir, setNlink_nlink_of_ne (Ne.symm hnd), setNlink_nlink]
  have hnl : ∀ e, e ≠ d → e ≠ n → ((s.rmdir d k n).inode e).nlink = (s.inode e).nlink := by
    intro e hed hen
    rw [Tree.rmdir, setNlink_nlink_of_ne hen, setNlink_nlink_of_ne hed, setEntry_nlink]
  have hdpos : 0 < ((s.rmdir d k n).inode d).nlink := by
    have hsubs := hw.subdirs hsub.1
    rw [oldSubdir, if_pos ⟨hk, hsub⟩, if_neg fun h => h.1 rfl] at hsubs
    rw [hnld, hs.below hl]
    omega
  have hdead : ¬ (s.rmdir d k n).Live n := by
    intro h
    have := h.2
    omega
  have hname := hs.named hl hsub.1 hk hsub.2.1
  have holds : oldSubdir s d k = 1 := if_pos ⟨hk, hsub⟩
  refine ⟨hs.relink hw hl ⟨by rw [hw.type, hl.1], hdpos⟩ hsub.1 hliven.1 hnd hnroot hdot hdotdot h2n hempty
    (fun h => absurd h hdead) (fun h => absurd rfl h) hnl (fun h => absurd h hdead) ?_ fun m hm => ?_, hdpos⟩
  · rw [hnld, holds]
    simp
  have hov : overwritten s d k m = if m = n then 1 else 0 := by
    rw [overwritten, if_pos hk]
    simp only [Dirent.names, hname.1, hn, ne_eq, not_false_eq_true, and_true, eq_comm]
  have hnames : (⟨[], 0⟩ : Dirent).names m = 0 := if_neg fun hc => hm hc.1.symm
  rw [hov, hnames]
  by_cases hmd : m = d
  · simp [hmd, hnd.symm, hnld, hdead, hliven]
  · by_cases hmn : m = n
    · simp [hmn, hnd, hnln, hone]
    · simp [hmd, hmn, hnl m hmd hmn]

end Dirs

end Xv6Mlfq.Files
