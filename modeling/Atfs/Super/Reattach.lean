import Atfs.Super.Recency

/-!
# Attaching an image at another address

An image that has been initialised is taken as it is, wherever it is mapped. The links of the
inode list in it are pointers of the process that wrote them. `SameState` says what two
mappings of an image would have to agree on; they do only if they are at one address.
-/

namespace Atfs

open ByteMemory LinkedRing

/-- The offset of the `k`-th node behind the head of the list, in the region mapped at `b`. -/
def nodeOffset (b : Nat) (m : Memory) (k : Nat) : Nat :=
  nvmAddr2off b ((listNext b m)^[k] (sListAddr b))

/-- The image `m₁` mapped at `b₁` and `m₂` mapped at `b₂` hold the same list. -/
structure SameState (b₁ : Nat) (m₁ : Memory) (b₂ : Nat) (m₂ : Memory) : Prop where
  nodes : ∀ k, nodeOffset b₂ m₂ k = nodeOffset b₁ m₁ k
  empty : listEmpty b₂ m₂ (sListAddr b₂) = listEmpty b₁ m₁ (sListAddr b₁)
  selected : (InodeList.startGcTask b₂ m₂).1 = (InodeList.startGcTask b₁ m₁).1
  moved : ∀ inode k,
    nodeOffset b₂ (listMove b₂ m₂ (lNodeAddr b₂ inode) (sListAddr b₂)) k =
      nodeOffset b₁ (listMove b₁ m₁ (lNodeAddr b₁ inode) (sListAddr b₁)) k

section Reattach

variable {K : KernelInit} {b b₁ b₂ : Nat} {m : Memory}

theorem Mapping.lt (hb : Mapping b) : b < 2 ^ 64 := by
  rw [Mapping, show nvmMmapSize = 17179869184 from rfl] at hb
  omega

/-- A pointer has the same offset only from the same address. -/
theorem nvmAddr2off_inj {a : Nat} (hb₁ : Mapping b₁) (hb₂ : Mapping b₂)
    (h : nvmAddr2off b₂ a = nvmAddr2off b₁ a) : b₂ = b₁ := by
  have h₁ := hb₁.lt
  have h₂ := hb₂.lt
  unfold nvmAddr2off subU64 at h
  omega

/-- The head of the list lies at the same offset everywhere, so it holds the same words. -/
theorem head_word (hb₁ : Mapping b₁) (hb₂ : Mapping b₂) (m : Memory) :
    listNext b₂ m (sListAddr b₂) = listNext b₁ m (sListAddr b₁) ∧
      listPrev b₂ m (sListAddr b₂) = listPrev b₁ m (sListAddr b₁) := by
  have hoff {b : Nat} (hb : Mapping b) : nvmAddr2off b (sListAddr b) = 112 := by
    rw [(apart_sListAddr hb).nvmAddr2off_eq List.mem_cons_self, sListAddr_eq hb]
    omega
  simp only [listNext, listPrev, hoff hb₁, hoff hb₂, and_self]

/-- Mapped elsewhere, the first node of the list lies at another offset. -/
theorem nodeOffset_one_ne (hb₁ : Mapping b₁) (hb₂ : Mapping b₂) (h : b₁ ≠ b₂) (m : Memory) :
    nodeOffset b₂ m 1 ≠ nodeOffset b₁ m 1 := by
  intro hc
  simp only [nodeOffset, Function.iterate_one, (head_word hb₁ hb₂ m).1] at hc
  exact h (nvmAddr2off_inj hb₁ hb₂ hc).symm

/-- Mapped elsewhere, the collector takes another inode. -/
theorem startGcTask_ne (hb₁ : Mapping b₁) (hb₂ : Mapping b₂) (h : b₁ ≠ b₂) (m : Memory) :
    (InodeList.startGcTask b₂ m).1 ≠ (InodeList.startGcTask b₁ m).1 := by
  obtain ⟨hnext, hprev⟩ := head_word hb₁ hb₂ m
  intro hc
  simp only [InodeList.startGcTask, listEmpty, beq_iff_eq, hnext, hprev] at hc
  split_ifs at hc with h₂ h₁ h₁
  · -- the head would be linked to itself at both addresses
    rw [h₁, sListAddr_eq hb₁, sListAddr_eq hb₂] at h₂
    omega
  · exact h (nvmAddr2off_inj hb₁ hb₂ (Option.some.inj hc)).symm

/-- An image with `s_init` set holds the same list at another address only if it is no other
address; elsewhere both the nodes of the list and the inode the collector takes differ. -/
theorem reattach_iff (hb₁ : Mapping b₁) (hb₂ : Mapping b₂)
    (hinit : AtfsSuperBlock.sInit.get m 0 ≠ 0) :
    (SameState b₁ m b₂ (initEnv K b₂ m) ↔ b₁ = b₂) ∧
      (b₁ ≠ b₂ → nodeOffset b₂ (initEnv K b₂ m) 1 ≠ nodeOffset b₁ m 1 ∧
        (InodeList.startGcTask b₂ (initEnv K b₂ m)).1 ≠ (InodeList.startGcTask b₁ m).1) := by
  rw [initEnv_of_ne hinit]
  refine ⟨⟨fun hsame => ?_, ?_⟩, fun h => ⟨nodeOffset_one_ne hb₁ hb₂ h m,
    startGcTask_ne hb₁ hb₂ h m⟩⟩
  · by_contra h
    exact nodeOffset_one_ne hb₁ hb₂ h m (hsame.nodes 1)
  · rintro rfl
    exact ⟨fun _ => rfl, rfl, rfl, fun _ _ => rfl⟩

end Reattach

/-! ## The image of a run -/

section Image

variable {K : KernelInit} {b : Nat} {m : Memory} {t : List ListStep}

/-- A run on a fresh region leaves an image that is not initialised again. -/
theorem initEnv_run_sInit (hb : Mapping b) (hm : AtfsSuperBlock.sInit.get m 0 = 0)
    (hrun : ListRun b (initEnv K b m) [] t) (hgood : ∀ s ∈ t, ¬ s.call.Reinserts) :
    AtfsSuperBlock.sInit.get (lastMemory (initEnv K b m) t) 0 = sbInitNumber := by
  obtain ⟨hinit, hring⟩ := initEnv_spec (K := K) hb hm
  have hnil : Located [] := located_first.mono (List.nil_subset _)
  exact (hrun.sInit hb hnil (hnil.recent hb hring) hgood).trans hinit

/-- Nothing is done about the tables whose initialisation is missing. -/
def noTables : KernelInit := ⟨id, id, fun _ => ChangesOnly.refl _ _, fun _ => ChangesOnly.refl _ _⟩

/-- The image after one file has been created in a fresh region mapped at `2 ^ 20`. -/
def oneFile : Memory :=
  lastMemory (initEnv noTables (2 ^ 20) fun _ => 0)
    (plainSteps (2 ^ 20) (initEnv noTables (2 ^ 20) fun _ => 0) [.atfscreat 3 offsetNull 114688])

theorem oneFile_sInit : AtfsSuperBlock.sInit.get oneFile 0 = sbInitNumber := by
  refine initEnv_run_sInit (show 2 ^ 20 + nvmMmapSize ≤ 2 ^ 64 by decide) (by decide)
    (listRun_plainSteps ⟨⟨.inl rfl, .inr ⟨List.not_mem_nil, located_first.mono (by simp)⟩⟩,
      trivial⟩) ?_
  intro s hs
  obtain rfl := List.mem_singleton.1 hs
  exact id

theorem reattach_iff_sample :
    SameState (2 ^ 20) oneFile (2 ^ 20) (initEnv noTables (2 ^ 20) oneFile) :=
  ((reattach_iff (show 2 ^ 20 + nvmMmapSize ≤ 2 ^ 64 by decide)
    (show 2 ^ 20 + nvmMmapSize ≤ 2 ^ 64 by decide) (by rw [oneFile_sInit]; decide)).1).2 rfl

/-- Mapped one megabyte further up the image holds another list. -/
theorem reattach_not_same :
    ¬ SameState (2 ^ 20) oneFile (2 ^ 21) (initEnv noTables (2 ^ 21) oneFile) := by
  intro h
  have hinit : AtfsSuperBlock.sInit.get oneFile 0 ≠ 0 := by
    rw [oneFile_sInit]
    decide
  refine nodeOffset_one_ne (show 2 ^ 20 + nvmMmapSize ≤ 2 ^ 64 by decide)
    (show 2 ^ 21 + nvmMmapSize ≤ 2 ^ 64 by decide) (by decide) oneFile ?_
  have := h.nodes 1
  rwa [initEnv_of_ne hinit] at this

end Image

end Atfs
