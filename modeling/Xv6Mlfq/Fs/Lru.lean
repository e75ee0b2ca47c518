import Xv6Mlfq.Lib.Linked
import Xv6Mlfq.Lib.Path
import Xv6Mlfq.Fs.Cache

/-!
# Xv6Mlfq.Fs.Lru — the pointers of the buffer list

`bcache.head` and the `prev` and `next` of the buffers in `bio.c`, which `Fs.Cache` has as a list.  A step is what a call does under
`bcache.lock`, for any argument: which buffers a caller may pass is not used.

* `Bcache.Listed s h l`: the pointers are the ring of `l`, and `l` is in the order in which the buffers were last released.
* `buffer_list`: there is such a list in every run, and `bget` recycles the buffer whose release is oldest.
-/

namespace Xv6Mlfq.Fs

open Function Linked

/-- `bcache`: its list and the fields of the buffers that `bget` assigns to. -/
structure Bcache where
  list : Links (Fin NBUF)
  dev : Fin NBUF → UInt32
  blockno : Fin NBUF → UInt32
  valid : Fin NBUF → Bool
  refcnt : Fin NBUF → UInt32

/-- What the loops of `bget` come to. -/
inductive Got
  | hit (b : Fin NBUF) | recycled (b : Fin NBUF) | panic
  deriving DecidableEq

/-- The calls; `filled` is `b->valid = 1` in `bread`. -/
inductive BcacheCall
  | bget (dev blockno : UInt32) | filled (b : Fin NBUF) | brelse (b : Fin NBUF) | bpin (b : Fin NBUF) | bunpin (b : Fin NBUF)
  deriving DecidableEq

namespace Bcache

/-- `binit`; `k` is what the pointers are before. -/
def binit (k : Links (Fin NBUF)) : Bcache where
  list := (List.finRange NBUF).foldl Links.push ⟨update k.next none none, update k.prev none none⟩
  dev := fun _ => 0
  blockno := fun _ => 0
  valid := fun _ => false
  refcnt := fun _ => 0

/-- The loops of `bget`; `none` if one of them does not end. -/
def search (s : Bcache) (dev blockno : UInt32) : Option Got :=
  match scan s.list.next (fun b => s.dev b == dev && s.blockno b == blockno) (NBUF + 1) (s.list.next none) with
  | none => none
  | some (some b) => some (.hit b)
  | some none =>
    match scan s.list.prev (fun b => s.refcnt b == 0) (NBUF + 1) (s.list.prev none) with
    | none => none
    | some (some b) => some (.recycled b)
    | some none => some .panic

/-- `bget` -/
def bget (s : Bcache) (dev blockno : UInt32) : Option Bcache :=
  match s.search dev blockno with
  | some (.hit b) => some { s with refcnt := update s.refcnt b (s.refcnt b + 1) }
  | some (.recycled b) => some { s with
      dev := update s.dev b dev, blockno := update s.blockno b blockno, valid := update s.valid b false
      refcnt := update s.refcnt b 1 }
  | _ => none

/-- `brelse` -/
def brelse (s : Bcache) (b : Fin NBUF) : Bcache :=
  let s := { s with refcnt := update s.refcnt b (s.refcnt b - 1) }
  if s.refcnt b = 0 then { s with list := (s.list.unlink b).push b } else s

/-- `bpin` -/
def bpin (s : Bcache) (b : Fin NBUF) : Bcache := { s with refcnt := update s.refcnt b (s.refcnt b + 1) }

/-- `bunpin` -/
def bunpin (s : Bcache) (b : Fin NBUF) : Bcache := { s with refcnt := update s.refcnt b (s.refcnt b - 1) }

def step (s : Bcache) : BcacheCall → Option Bcache
  | .bget dev blockno => s.bget dev blockno
  | .filled b => some { s with valid := update s.valid b true }
  | .brelse b => some (s.brelse b)
  | .bpin b => some (s.bpin b)
  | .bunpin b => some (s.bunpin b)

/-- When `brelse` last brought the count of `b` to 0, in calls from the start; 0 if it never did. -/
def released (b : Fin NBUF) : List (Bcache × BcacheCall) → ℕ
  | [] => 0
  | (s, e) :: h => if e = .brelse b ∧ s.refcnt b - 1 = 0 then h.length + 1 else released b h

structure Listed (s : Bcache) (h : List (Bcache × BcacheCall)) (l : List (Fin NBUF)) : Prop where
  ring : s.list.Ring l
  nodup : l.Nodup
  all : ∀ b, b ∈ l
  order : l.Pairwise fun b b' => released b' h ≤ released b h

variable {s s' : Bcache} {h : List (Bcache × BcacheCall)} {e : BcacheCall} {l : List (Fin NBUF)}
  {b : Fin NBUF} {k : Links (Fin NBUF)}

theorem released_le (b : Fin NBUF) (h : List (Bcache × BcacheCall)) : released b h ≤ h.length := by
  induction h with
  | nil => exact le_rfl
  | cons x h ih =>
    rw [released, List.length_cons]
    split_ifs <;> omega

theorem ring_pushes (hk : k.Ring l) {m : List (Fin NBUF)} (hd : (m.reverse ++ l).Nodup) :
    (m.foldl Links.push k).Ring (m.reverse ++ l) := by
  induction m generalizing k l with
  | nil => exact hk
  | cons b m ih =>
    rw [List.reverse_cons, List.append_assoc, List.singleton_append] at hd ⊢
    obtain ⟨hb, hl⟩ := List.nodup_cons.mp (List.nodup_append.mp hd).2.1
    exact ih (hk.push hb hl) hd

theorem listed_binit (k : Links (Fin NBUF)) : (binit k).Listed [] (List.finRange NBUF).reverse where
  ring := by
    have hk := ring_pushes (k := ⟨update k.next none none, update k.prev none none⟩) (l := []) (m := List.finRange NBUF)
      ⟨by simp, by simp⟩ (by simpa using List.nodup_finRange NBUF)
    rwa [List.append_nil] at hk
  nodup := List.nodup_reverse.mpr (List.nodup_finRange NBUF)
  all := by simp
  order := List.pairwise_of_forall fun _ _ => le_rfl

/-- **The loops of `bget` search the list**, from the front for the block and from the end for an unused buffer. -/
theorem Listed.search (hl : s.Listed h l) (dev blockno : UInt32) :
    s.search dev blockno = match l.find? (fun b => s.dev b == dev && s.blockno b == blockno) with
      | some b => some (.hit b)
      | none => match l.reverse.find? (fun b => s.refcnt b == 0) with
        | some b => some (.recycled b)
        | none => some .panic := by
  have hlen : l.length < NBUF + 1 := Nat.lt_succ_of_le ((hl.nodup.length_le_card).trans_eq (Fintype.card_fin NBUF))
  rw [Bcache.search, hl.ring.scan hlen, hl.ring.reverse.scan (by rwa [List.length_reverse])]
  cases l.find? _ <;> cases l.reverse.find? _ <;> rfl

/-- What the loops of `bget` come to, in terms of the buffers. -/
theorem Listed.search_cases (hl : s.Listed h l) (dev blockno : UInt32) : ∃ g, s.search dev blockno = some g ∧
    match g with
    | .hit b => s.dev b = dev ∧ s.blockno b = blockno
    | .recycled b => (∀ b, ¬ (s.dev b = dev ∧ s.blockno b = blockno)) ∧ s.refcnt b = 0 ∧
        ∀ b', s.refcnt b' = 0 → released b h ≤ released b' h
    | .panic => (∀ b, ¬ (s.dev b = dev ∧ s.blockno b = blockno)) ∧ ∀ b, s.refcnt b ≠ 0 := by
  rw [hl.search]
  cases hfind : l.find? (fun b => s.dev b == dev && s.blockno b == blockno) with
  | some b => exact ⟨_, rfl, by simpa using List.find?_some hfind⟩
  | none =>
    have hnot : ∀ b, ¬ (s.dev b = dev ∧ s.blockno b = blockno) := fun b => by
      simpa using List.find?_eq_none.mp hfind b (hl.all b)
    cases hrev : l.reverse.find? (fun b => s.refcnt b == 0) with
    | none =>
      refine ⟨_, rfl, hnot, fun b => ?_⟩
      simpa using List.find?_eq_none.mp hrev b (List.mem_reverse.mpr (hl.all b))
    | some b =>
      obtain ⟨hb, front, back, hlist, hfront⟩ := List.find?_eq_some_iff_append.mp hrev
      refine ⟨_, rfl, hnot, by simpa using hb, fun b' hb' => ?_⟩
      have hmem : b' ∈ front ++ b :: back := hlist ▸ List.mem_reverse.mpr (hl.all b')
      have horder : (front ++ b :: back).Pairwise fun b b' => released b h ≤ released b' h :=
        hlist ▸ List.pairwise_reverse.mpr hl.order
      rcases List.mem_append.mp hmem with hm | hm
      · simpa [hb'] using hfront b' hm
      · rcases List.mem_cons.mp hm with rfl | hm
        · exact le_rfl
        · exact (List.pairwise_cons.mp (List.pairwise_append.mp horder).2.1).1 b' hm

/-- A call that does not move a buffer. -/
theorem Listed.keep (hl : s.Listed h l) (hlist : s'.list = s.list)
    (he : ∀ b, ¬(e = .brelse b ∧ s.refcnt b - 1 = 0)) : s'.Listed ((s, e) :: h) l where
  ring := hlist ▸ hl.ring
  nodup := hl.nodup
  all := hl.all
  order := by simpa only [released, if_neg (he _)] using hl.order

/-- `brelse` to 0 moves the buffer to the front. -/
theorem Listed.move (hl : s.Listed h l) (hb : s.refcnt b - 1 = 0) {s' : Bcache} (hlist : s'.list = (s.list.unlink b).push b) :
    s'.Listed ((s, .brelse b) :: h) (b :: l.erase b) := by
  obtain ⟨front, back, rfl⟩ := List.append_of_mem (hl.all b)
  have hnot : b ∉ front := fun hm => (List.nodup_append.mp hl.nodup).2.2 b hm b List.mem_cons_self rfl
  have herase : (front ++ b :: back).erase b = front ++ back := by
    rw [List.erase_append_right _ hnot, List.erase_cons_head]
  have hnodup := hl.nodup.erase b
  have hout : b ∉ front ++ back := herase ▸ hl.nodup.not_mem_erase
  have hlater (b' : Fin NBUF) : released b' ((s, .brelse b) :: h) = if b' = b then h.length + 1 else released b' h := by
    rcases eq_or_ne b' b with rfl | hne
    · rw [released, if_pos ⟨rfl, hb⟩, if_pos rfl]
    · rw [released, if_neg fun he => hne (BcacheCall.brelse.inj he.1).symm, if_neg hne]
  refine ⟨?_, List.nodup_cons.mpr ⟨hl.nodup.not_mem_erase, hnodup⟩, fun b' => ?_, List.pairwise_cons.mpr ⟨fun b' _ => ?_, ?_⟩⟩
  · rw [hlist, herase]
    exact (hl.ring.unlink hl.nodup).push hout (herase ▸ hnodup)
  · rw [herase]
    simpa [or_left_comm] using hl.all b'
  · rw [hlater b, if_pos rfl]
    exact released_le ..
  · rw [herase]
    have hsub : (front ++ back).Sublist (front ++ b :: back) := (List.sublist_cons_self b back).append_left front
    refine (hl.order.sublist hsub).imp_of_mem fun {b1 b2} h1 h2 hle => ?_
    rwa [hlater, hlater, if_neg (ne_of_mem_of_not_mem h2 hout), if_neg (ne_of_mem_of_not_mem h1 hout)]

theorem Listed.step (hl : s.Listed h l) (hs : s.step e = some s') : ∃ l', s'.Listed ((s, e) :: h) l' := by
  cases e with
  | bget dev blockno =>
    refine ⟨l, hl.keep ?_ (by simp)⟩
    simp only [Bcache.step, bget] at hs
    split at hs <;> cases hs <;> rfl
  | brelse b =>
    obtain rfl := Option.some.inj hs
    by_cases hb : s.refcnt b - 1 = 0
    · exact ⟨_, hl.move hb (by simp [brelse, hb])⟩
    · refine ⟨l, hl.keep (by simp [brelse, hb]) ?_⟩
      rintro b' ⟨he, hb'⟩
      cases he
      exact hb hb'
  | filled b | bpin b | bunpin b =>
    obtain rfl := Option.some.inj hs
    exact ⟨l, hl.keep rfl (by simp)⟩

end Bcache

/-- **The buffer list is one ring of all buffers, and `bget` recycles the one whose last release is oldest.**  `bget` takes a buffer
that has the block, and counts the reference; if there is none, the unused buffer that was released first, which becomes the buffer of
the block, not read yet and with one reference.  It panics if there is none of these either. -/
theorem buffer_list {h : List (Bcache × BcacheCall)} {s : Bcache}
    (hr : Lts.Path Bcache.step (Bcache.binit k) h s) :
    (∃ l : List (Fin NBUF), s.list.Ring l ∧ l.Nodup ∧ ∀ b, b ∈ l) ∧
    ∀ dev blockno,
      ((∃ b, s.dev b = dev ∧ s.blockno b = blockno) → ∃ b s', s.step (.bget dev blockno) = some s' ∧ s.dev b = dev ∧
        s.blockno b = blockno ∧ s' = { s with refcnt := update s.refcnt b (s.refcnt b + 1) }) ∧
      ((∀ b, ¬ (s.dev b = dev ∧ s.blockno b = blockno)) → (∃ b, s.refcnt b = 0) → ∃ b s', s.step (.bget dev blockno) = some s' ∧
        (s.refcnt b = 0 ∧ ∀ b', s.refcnt b' = 0 → Bcache.released b h ≤ Bcache.released b' h) ∧
        (s'.dev b = dev ∧ s'.blockno b = blockno ∧ s'.valid b = false ∧ s'.refcnt b = 1) ∧ s'.list = s.list ∧
        ∀ b' ≠ b, s'.dev b' = s.dev b' ∧ s'.blockno b' = s.blockno b' ∧ s'.valid b' = s.valid b' ∧ s'.refcnt b' = s.refcnt b') ∧
      ((∀ b, ¬ (s.dev b = dev ∧ s.blockno b = blockno)) → (∀ b, s.refcnt b ≠ 0) → s.step (.bget dev blockno) = none) := by
  obtain ⟨l, hl⟩ := hr.inv_hist (I := fun h s => ∃ l, s.Listed h l) ⟨_, Bcache.listed_binit k⟩ (by
    rintro h s e s' - ⟨l, hl⟩ hs
    exact hl.step hs)
  refine ⟨⟨l, hl.ring, hl.nodup, hl.all⟩, fun dev blockno => ?_⟩
  obtain ⟨g, hg, hspec⟩ := hl.search_cases dev blockno
  have hstep : s.step (.bget dev blockno) = s.bget dev blockno := rfl
  rw [Bcache.bget, hg] at hstep
  cases g with
  | hit b => exact ⟨fun _ => ⟨b, _, hstep, hspec.1, hspec.2, rfl⟩, fun hnot => absurd hspec (hnot b), fun hnot => absurd hspec (hnot b)⟩
  | recycled b =>
    obtain ⟨hnot, hb, hold⟩ := hspec
    refine ⟨fun hin => ?_, fun _ _ => ⟨b, _, hstep, ⟨hb, hold⟩, ?_, rfl, fun b' hne => ?_⟩, fun _ hnone => absurd hb (hnone b)⟩
    · obtain ⟨b', hb'⟩ := hin
      exact absurd hb' (hnot b')
    · simp only [update_self, and_self]
    · simp only [update_of_ne hne, and_self]
  | panic =>
    refine ⟨fun hin => ?_, fun _ hin => ?_, fun _ _ => hstep⟩
    · obtain ⟨b', hb'⟩ := hin
      exact absurd hb' (hspec.1 b')
    · obtain ⟨b', hb'⟩ := hin
      exact absurd hb' (hspec.2 b')

/-- Buffer 0 is used and released; the next block gets buffer 1. -/
theorem buffer_list_two : ∃ (h : List (Bcache × BcacheCall)) (s s' : Bcache) (b : Fin NBUF),
    Lts.Path Bcache.step (Bcache.binit ⟨fun _ => none, fun _ => none⟩) h s ∧ Bcache.released 0 h = 3 ∧
      s.step (.bget 1 8) = some s' ∧ s'.blockno b = 8 ∧ s'.refcnt b = 1 ∧
      ∀ b', s.refcnt b' = 0 → Bcache.released b h ≤ Bcache.released b' h := by
  have hrun : ∃ h s, Lts.Path Bcache.step (Bcache.binit ⟨fun _ => none, fun _ => none⟩) h s ∧
      (Bcache.released 0 h = 3 ∧ (∀ b, ¬ (s.dev b = 1 ∧ s.blockno b = 8)) ∧ s.refcnt 0 = 0) :=
    Lts.exists_path_of_replay (fun h s => Bcache.released 0 h = 3 ∧ (∀ b, ¬ (s.dev b = 1 ∧ s.blockno b = 8)) ∧ s.refcnt 0 = 0)
      [.bget 1 7, .filled 0, .brelse 0] (by decide +kernel)
  obtain ⟨h, s, hp, hrel, hnot, hzero⟩ := hrun
  obtain ⟨b, s', hs, hold, ⟨-, hblock, -, hcnt⟩, -⟩ := ((buffer_list hp).2 1 8).2.1 hnot ⟨0, hzero⟩
  exact ⟨h, s, s', b, hp, hrel, hs, hblock, hcnt, hold.2⟩

end Xv6Mlfq.Fs
