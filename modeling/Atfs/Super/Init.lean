import Atfs.Allocator.Init
import Atfs.Super.Basic

/-!
# Attaching the region (nvmio.c, super.c)

`init_env` maps the file wherever `mmap` puts it. Only the first process to attach finds `s_init`
clear and initialises the lists; every later one takes the region as it is.
-/

namespace Atfs

open ByteMemory LinkedRing

def sbInitNumber : Nat := 1234567890

/-- The parts of the initialisation whose code is missing: they write tables behind the
superblock. -/
structure KernelInit where
  kernelInodeListInit : Memory → Memory
  kernelRadixtreeListInit : Memory → Memory
  inodeList_changesOnly : ∀ m, ChangesOnly (Set.Ici 4095) m (kernelInodeListInit m)
  radixtreeList_changesOnly : ∀ m, ChangesOnly (Set.Ici 4095) m (kernelRadixtreeListInit m)

def gAtfsPath : List UInt8 := "/home/rita/atfs".toList.map fun c => UInt8.ofNat c.toNat

/-- The header declares `atfs_path` as a string, and so it is taken here. -/
def kernelSuperblockInit (b : Nat) (m : Memory) (atfsPath : List UInt8) : Memory :=
  let m := AtfsSuperBlock.sSize.set m 0 nvmMmapSize
  let m := AtfsSuperBlock.sBlocksize.set m 0 pageSize
  let m := AtfsSuperBlock.numBlocks.set m 0 (nvmMmapSize / AtfsSuperBlock.sBlocksize.get m 0)
  let m := AtfsSuperBlock.freeNumPages.set m 0 nvmFreeNumPages
  let m := initListHead b m (sListAddr b)
  let m := pthreadMutexInit m AtfsSuperBlock.mutex.off
  copy m AtfsSuperBlock.sVolumeName.off (fun i => atfsPath.getD i 0) 0 atfsPath.length

/-- `b` is the address `mmap` returns. -/
def initEnv (K : KernelInit) (b : Nat) (m : Memory) : Memory :=
  if AtfsSuperBlock.sInit.get m 0 = 0 then
    let m := AtfsSuperBlock.sInit.set m 0 sbInitNumber
    let m := kernelPageListInit m
    let m := K.kernelInodeListInit m
    let m := K.kernelRadixtreeListInit m
    kernelSuperblockInit b m gAtfsPath
  else m

/-- The region is mapped below the end of the address space. -/
def Mapping (b : Nat) : Prop := b + nvmMmapSize ≤ 2 ^ 64

section Init

variable {K : KernelInit} {b : Nat} {m : Memory}

theorem sListAddr_eq (hb : Mapping b) : sListAddr b = b + 112 := by
  rw [Mapping, show nvmMmapSize = 17179869184 from rfl] at hb
  exact addU64_of_lt (by rw [AtfsSuperBlock.sList_off]; omega)

theorem apart_sListAddr (hb : Mapping b) : Apart b [sListAddr b] := by
  refine ⟨fun p hp => ?_, fun p hp q hq hpq => ?_, hb⟩
  · rw [List.mem_singleton.1 hp, sListAddr_eq hb, show nvmMmapSize = 17179869184 from rfl]
    omega
  · rw [List.mem_singleton.1 hp, List.mem_singleton.1 hq] at hpq
    exact absurd rfl hpq

/-- A head that is linked to itself is an empty ring. -/
theorem Apart.circle_initListHead {h : Nat} (ha : Apart b [h]) (m : Memory) :
    Circle (linksOf b (initListHead b m h)) h [] := by
  have hh := ha.lt List.mem_cons_self
  have hprev := ha.listNodes.agree_setListPrev (m := setListNext b m h h) List.mem_cons_self hh
  have hnext := ha.listNodes.agree_setListNext (m := m) List.mem_cons_self hh
  obtain ⟨hn, hp⟩ := hprev.trans (hnext.setPrev h h) h List.mem_cons_self
  refine circle_nil.2 ⟨hn.trans ?_, hp.trans ?_⟩ <;> exact Function.update_self ..

/-- What `kernel_superblock_init` leaves of the words the list and its caller rely on. -/
theorem kernelSuperblockInit_spec (hb : Mapping b) (m : Memory) {path : List UInt8}
    (hpath : path.length ≤ 64) :
    AtfsSuperBlock.sInit.get (kernelSuperblockInit b m path) 0 = AtfsSuperBlock.sInit.get m 0 ∧
      Circle (linksOf b (kernelSuperblockInit b m path)) (sListAddr b) [] := by
  have ha := apart_sListAddr hb
  have hoff : nvmAddr2off b (sListAddr b) = 112 := by
    rw [ha.nvmAddr2off_eq List.mem_cons_self, sListAddr_eq hb]
    omega
  rw [kernelSuperblockInit]
  generalize hm : AtfsSuperBlock.freeNumPages.set _ _ _ = m₁
  have hinit : AtfsSuperBlock.sInit.get m₁ 0 = AtfsSuperBlock.sInit.get m 0 := by
    rw [← hm]
    simp only [Field.get_set_of_disjoint, AtfsSuperBlock.sInit_off, AtfsSuperBlock.sInit_size,
      AtfsSuperBlock.sSize_off, AtfsSuperBlock.sBlocksize_off, AtfsSuperBlock.numBlocks_off,
      AtfsSuperBlock.freeNumPages_off, true_or, Nat.reduceAdd, Nat.reduceLeDiff]
  -- the mutex and the name lie beside the links
  have hkeep (f : Field 16) (m' : Memory) :
      f.get (copy (pthreadMutexInit m' AtfsSuperBlock.mutex.off) AtfsSuperBlock.sVolumeName.off
        (fun i => path.getD i 0) 0 path.length) 112 = f.get m' 112 := by
    have := f.fits
    rw [Field.get_copy_of_disjoint (by rw [AtfsSuperBlock.sVolumeName_off]; omega),
      pthreadMutexInit, Field.get_fill_of_disjoint (by rw [AtfsSuperBlock.mutex_off]; omega)]
  constructor
  · rw [Field.get_copy_of_disjoint (by simp), pthreadMutexInit,
      Field.get_fill_of_disjoint (by simp), initListHead, setListPrev, setListNext, hoff,
      Field.get_set_of_disjoint _ _ _ (by simp), Field.get_set_of_disjoint _ _ _ (by simp), hinit]
  · refine (ha.circle_initListHead m₁).congr fun p hp => ?_
    obtain rfl := List.mem_singleton.1 hp
    simp only [linksOf, listNext, listPrev, hoff]
    exact ⟨(hkeep _ _).symm, (hkeep _ _).symm⟩

/-- A region that has been initialised is not touched. -/
theorem initEnv_of_ne (h : AtfsSuperBlock.sInit.get m 0 ≠ 0) : initEnv K b m = m := if_neg h

/-- The first process to attach leaves an empty list. -/
theorem initEnv_spec (hb : Mapping b) (h : AtfsSuperBlock.sInit.get m 0 = 0) :
    AtfsSuperBlock.sInit.get (initEnv K b m) 0 = sbInitNumber ∧
      Circle (linksOf b (initEnv K b m)) (sListAddr b) [] := by
  rw [initEnv, if_pos h]
  obtain ⟨hinit, hring⟩ := kernelSuperblockInit_spec hb (K.kernelRadixtreeListInit
    (K.kernelInodeListInit (kernelPageListInit (AtfsSuperBlock.sInit.set m 0 sbInitNumber))))
    (show gAtfsPath.length ≤ 64 by decide)
  refine ⟨hinit.trans ?_, hring⟩
  have hkeep := ((kernelPageListInit_run (AtfsSuperBlock.sInit.set m 0 sbInitNumber)).2.2.trans
    (K.inodeList_changesOnly _)).trans (K.radixtreeList_changesOnly _)
  rw [hkeep.get AtfsSuperBlock.sInit ?_]
  · exact Field.get_set_self_of_lt _ _ (by decide)
  · refine Set.disjoint_left.2 fun a ha hc => ?_
    rw [Set.mem_Ici] at ha
    rw [Field.bytes, AtfsSuperBlock.sInit_off, AtfsSuperBlock.sInit_size, Set.mem_Ico] at hc
    omega

end Init

end Atfs
