import EszOs.Storage.DirectoryChain
import EszOs.Storage.FileRead

/-!
# Files without a buffer (`storage/filesystem/fat32/fat32.cpp`)

`read_cluster_chain` returns the null pointer for a file whose `FirstCluster` is no data cluster, for
example an empty one. `fat32_read` stores its zero through the pointer without a look at it.

* `findEntry_file`: what is known of a file that `find_entry` returns.
* `chainReads_iff`: a chain that fits is read exactly if the heap has room for two buffers.
* `fat32Read_safe_iff`: nothing is stored through the null pointer exactly if `FirstCluster` is a data
  cluster and, for a chain that fits, the heap has room for two buffers.
-/

namespace EszOs

open Bytes Blocks
open PathLookup (bind_eq_ok)

variable {v : Volume} {entry : Entry} {h : Heap}

/-! ## Stores through the null pointer -/

/-- The null pointer comes from `malloc`, and a cluster is copied to it next, or it comes from
`read_cluster_chain`, and the zero is stored through it. -/
def StoresThroughNull (v : Volume) (fuel : Nat) (h : Heap) (entry : Entry) : Prop :=
  readClusterChain v fuel h entry.firstCluster entry.size = .error .allocationFailed ∨
    ∃ h', readClusterChain v fuel h entry.firstCluster entry.size = .ok (0, h')

/-- `malloc` gives at least `n` bytes at `ptr`. -/
def IsBuffer (h : Heap) (ptr n : Nat) : Prop :=
  ∃ size h', h.malloc size = some (some ptr, h') ∧ n ≤ size

/-- `fat32_read` returns, without a store through the null pointer: the null pointer or a buffer for
the file and its zero. -/
def ReadsSafely (v : Volume) (h : Heap) (entry : Entry) : Prop :=
  ∃ fuel fileData h', fat32Read v fuel h entry = .ok (fileData, h') ∧
    ¬ StoresThroughNull v fuel h entry ∧ (fileData = 0 ∨ IsBuffer h fileData (entry.size + 1))

/-- `read_cluster_chain` gets through: the chain ends, and no `malloc` returns the null pointer. -/
def ChainReads (v : Volume) (h : Heap) (entry : Entry) : Prop :=
  ∃ fuel r, readClusterChain v fuel h entry.firstCluster entry.size = .ok r

/-- The clusters fit into `outBuffer`. -/
structure ChainFits (v : Volume) (entry : Entry) : Prop where
  sectors : v.context.bytesPerSector = sectorSize
  length (n : Nat) : Chains.Going (getNextCluster v) IsDataCluster entry.firstCluster n →
    n * v.context.clusterSizeInBytes ≤ outBufferSize v entry.size

/-- `malloc` gives `outBuffer`, and then a `tempBuffer`. -/
def HasRoom (v : Volume) (h : Heap) (entry : Entry) : Prop :=
  ∃ outBuffer h₁ tempBuffer h₂, h.malloc (outBufferSize v entry.size) = some (some outBuffer, h₁) ∧
    h₁.malloc v.context.clusterSizeInBytes = some (some tempBuffer, h₂)

/-! ## The entries that are found -/

/-- An entry of a directory has a size of 32 bits, and the clusters are not empty. -/
theorem mem_dirEntries {cluster : Nat} {entries : List Entry}
    (hdir : dirEntries v cluster = .ok entries) {e : Entry} (he : e ∈ entries) :
    e.size < 2 ^ 32 ∧ 0 < v.context.clusterSizeInBytes := by
  by_cases hdata : IsDataCluster cluster
  · rw [dirEntries_eq hdata, listed_eq_ok] at hdir
    obtain ⟨r, hr, name, rfl⟩ := mem_decode hdir he
    refine ⟨r.fileSize_lt, Nat.pos_of_ne_zero fun h0 => ?_⟩
    rw [chainRecords, List.flatMap_singleton, clusterRecords, h0] at hr
    cases hr
  · rw [dirEntries, readDirEntries, if_pos (not_isDataCluster.mp hdata)] at hdir
    rw [← Except.ok.inj hdir] at he
    cases he

/-- What is found last is an entry of the directory. -/
theorem findLast_found {pathSection : CString} {cluster : Nat}
    (hlast : findLast v pathSection cluster = .ok entry) (hfound : entry.found = true) :
    ∃ entries, dirEntries v cluster = .ok entries ∧ ∃ e ∈ entries, entry.size = e.size := by
  rw [findLast] at hlast
  cases hdir : dirEntries v cluster with
  | error d =>
    rw [hdir] at hlast
    cases hlast
  | ok entries =>
    rw [hdir, Except.map] at hlast
    cases hfind : entries.find? fun e => strEqual e.name pathSection with
    | none =>
      simp only [hfind] at hlast
      rw [← Except.ok.inj hlast] at hfound
      cases hfound
    | some e =>
      simp only [hfind] at hlast
      refine ⟨entries, rfl, e, List.mem_of_find?_eq_some hfind, ?_⟩
      rw [← Except.ok.inj hlast]

/-- A file that is found has a size of 32 bits, on a volume whose clusters are not empty. -/
theorem findEntry_file {path : CString} (hfind : findEntry v path = .ok entry)
    (hfound : entry.found = true) (hfile : entry.isDirectory = false) :
    entry.size < 2 ^ 32 ∧ 0 < v.context.clusterSizeInBytes := by
  rw [findEntry] at hfind
  split at hfind
  · rw [← Except.ok.inj hfind] at hfile
    cases hfile
  split at hfind
  · cases hfind
  obtain ⟨cluster?, -, hlast⟩ := bind_eq_ok.mp (mapError_eq_ok.mp hfind)
  cases cluster? with
  | none =>
    rw [← Except.ok.inj hlast] at hfound
    cases hfound
  | some cluster =>
    obtain ⟨entries, hdir, e, he, hsize⟩ := findLast_found hlast hfound
    rw [hsize]
    exact mem_dirEntries hdir he

/-! ## Chains that are read -/

variable {start size : Nat} {live : Live} {bs : List Block}

/-- A file that is read has a buffer from `malloc`, and there was one for its first cluster. -/
theorem readClusterChain_eq_ok {startCluster n fuel : Nat} {r : Nat × Heap}
    (hdata : IsDataCluster startCluster) (hread : readClusterChain v fuel h startCluster n = .ok r) :
    ∃ h₁ tempBuffer h₂, h.malloc (outBufferSize v n) = some (some r.1, h₁) ∧
      h₁.malloc v.context.clusterSizeInBytes = some (some tempBuffer, h₂) := by
  rw [readClusterChain, if_neg (not_not_intro hdata)] at hread
  obtain ⟨⟨outBuffer, h₁⟩, hout, hread⟩ := bind_eq_ok.mp hread
  have hreads : (ChainState.first startCluster).Reads := hdata
  cases hloop : chainLoop v outBuffer fuel (.first startCluster) h₁ with
  | error f =>
    simp only [hloop] at hread
    cases hread
  | ok h' =>
    simp only [hloop] at hread
    cases hread
    cases fuel with
    | zero =>
      rw [chainLoop, if_pos hreads] at hloop
      cases hloop
    | succ fuel =>
      rw [chainLoop, if_pos hreads] at hloop
      obtain ⟨h₃, hcopy, -⟩ := bind_eq_ok.mp hloop
      obtain ⟨⟨tempBuffer, h₂⟩, htemp, -⟩ := bind_eq_ok.mp hcopy
      exact ⟨h₁, tempBuffer, h₂, allocate_eq_ok.mp hout, allocate_eq_ok.mp htemp⟩

/-- A chain that fits ends. -/
theorem ChainFits.ends (hfits : ChainFits v entry) (hpos : 0 < v.context.clusterSizeInBytes) :
    Chains.Ends (getNextCluster v) IsDataCluster entry.firstCluster := by
  by_contra hends
  have hgoing : Chains.Going (getNextCluster v) IsDataCluster entry.firstCluster
      (outBufferSize v entry.size + 1) := fun i _ => by
    by_contra hi
    exact hends ⟨i, hi⟩
  have hlength := hfits.length _ hgoing
  have hle : outBufferSize v entry.size + 1 ≤
      (outBufferSize v entry.size + 1) * v.context.clusterSizeInBytes := Nat.le_mul_of_pos_right _ hpos
  omega

/-- A chain that fits is read exactly if the heap has room for the two buffers. -/
theorem chainReads_iff (hi : HeapInv start size h live bs) (hpos : 0 < v.context.clusterSizeInBytes)
    (hdata : IsDataCluster entry.firstCluster) (hfits : ChainFits v entry) :
    ChainReads v h entry ↔ HasRoom v h entry := by
  constructor
  · rintro ⟨fuel, r, hread⟩
    obtain ⟨h₁, tempBuffer, h₂, hout, htemp⟩ := readClusterChain_eq_ok hdata hread
    exact ⟨r.1, h₁, tempBuffer, h₂, hout, htemp⟩
  · rintro ⟨outBuffer, h₁, tempBuffer, h₂, hout, htemp⟩
    obtain ⟨chain, hchain⟩ := Chains.exists_isChain (hfits.ends hpos)
    obtain ⟨bs₁, hi₁⟩ : ∃ bs₁, HeapInv start size h₁
        ((outBuffer, outBufferSize v entry.size) :: live) bs₁ := hi.step (.malloc (u64_lt _) hout)
    have hfit : (ChainState.first entry.firstCluster).bufferWriteOffset +
        chain.length * v.context.clusterSizeInBytes ≤ outBufferSize v entry.size := by
      rw [ChainState.first_bufferWriteOffset, Nat.zero_add]
      exact hfits.length _ hchain.going
    rcases chainLoop_cases hfits.sectors hchain (Nat.le_refl _) rfl hi₁ List.mem_cons_self (u64_lt _)
      hfit List.length_nil (bytesAt_nil _ _) with ⟨-, hunfit⟩ | ⟨h', hloop, -⟩
    · -- No block fits, but there was one.
      rw [hi₁.tiled.malloc_of_unfit hunfit] at htemp
      cases htemp
    · refine ⟨chain.length, (outBuffer, h'), ?_⟩
      have hallocate : allocate h (outBufferSize v entry.size) = .ok (outBuffer, h₁) :=
        allocate_eq_ok.mpr hout
      rw [readClusterChain, if_neg (not_not_intro hdata), hallocate]
      simp only [Except.bind, hloop, Except.map]

/-! ## `fat32_read` -/

/-- The buffer of a chain that is read. -/
theorem readsSafely_of_chain (hi : HeapInv start size h live bs) (hsize : entry.size < 2 ^ 32)
    (hpos : 0 < v.context.clusterSizeInBytes) (hdata : IsDataCluster entry.firstCluster)
    (hchain : ChainReads v h entry) : ReadsSafely v h entry := by
  obtain ⟨fuel, ⟨fileData, h'⟩, hread⟩ := hchain
  obtain ⟨h₁, -, -, hout, -⟩ := readClusterChain_eq_ok hdata hread
  have hne : fileData ≠ 0 := by
    rcases hi.malloc_cases (outBufferSize v entry.size) with ⟨-, hm⟩ | ⟨pre, b, post, -, -, -, hm⟩
    · rw [hm] at hout
      cases hout
    · rw [hm] at hout
      have hptr : start + span headerSize pre + headerSize = fileData :=
        Option.some.inj (Prod.mk.inj (Option.some.inj hout)).1
      rw [← hptr]
      exact Nat.ne_of_gt (Nat.add_pos_right _ (by decide))
  have hlarge : entry.size + 1 ≤ outBufferSize v entry.size := by
    have hlt := v.context.clusterSizeInBytes_lt
    rw [outBufferSize_eq hsize]
    exact Nat.succ_le_succ (le_divideRoundUp_mul hpos (by omega))
  refine ⟨fuel, fileData, _, by rw [fat32Read, hread]; rfl, ?_, .inr ⟨_, h₁, hout, hlarge⟩⟩
  rintro (hfail | ⟨h₂, hnull⟩)
  · rw [hfail] at hread
    cases hread
  · rw [hnull] at hread
    exact hne (Prod.mk.inj (Except.ok.inj hread)).1.symm

/-- A read that is safe reads the chain of a data cluster. -/
theorem chain_of_readsSafely (hsafe : ReadsSafely v h entry) :
    IsDataCluster entry.firstCluster ∧ ChainReads v h entry := by
  obtain ⟨fuel, fileData, h', hread, hnull, -⟩ := hsafe
  refine ⟨?_, ?_⟩
  · by_contra hdata
    exact hnull (.inr ⟨h, if_pos hdata⟩)
  · rw [fat32Read] at hread
    cases hchain : readClusterChain v fuel h entry.firstCluster entry.size with
    | error f =>
      rw [hchain] at hread
      cases hread
    | ok r => exact ⟨fuel, r, hchain⟩

/-- `fat32_read` of a file that `find_entry` returns and whose chain fits stores nothing through the
null pointer exactly if the file starts with a data cluster and the heap has room for the two buffers.
Without a bound on the chain, it has to be read. -/
theorem fat32Read_safe_iff {m : Mem} {heapStart : Nat} {h₀ : Heap}
    (hinit : initHeapAlloc m heapStart = some h₀) (hwrap : heapStart + initHeapSize < 2 ^ 64)
    (hr : HeapReach (h₀, []) (h, live)) {path : CString} (hfind : findEntry v path = .ok entry)
    (hfound : entry.found = true) (hfile : entry.isDirectory = false) :
    (ChainFits v entry →
        (ReadsSafely v h entry ↔ IsDataCluster entry.firstCluster ∧ HasRoom v h entry)) ∧
      (ReadsSafely v h entry ↔ IsDataCluster entry.firstCluster ∧ ChainReads v h entry) := by
  obtain ⟨bs, hi⟩ := (heapInv_init hinit hwrap).reach hr
  obtain ⟨hsize, hpos⟩ := findEntry_file hfind hfound hfile
  have hsafe : ReadsSafely v h entry ↔
      IsDataCluster entry.firstCluster ∧ ChainReads v h entry :=
    ⟨chain_of_readsSafely, fun ⟨hdata, hchain⟩ => readsSafely_of_chain hi hsize hpos hdata hchain⟩
  refine ⟨fun hfits => hsafe.trans (and_congr_right fun hdata => ?_), hsafe⟩
  exact chainReads_iff hi hpos hdata hfits

/-- The file of `byteVolume`. -/
def byteFile : Entry := { name := literal "foo.txt", size := 1, firstCluster := 3, found := true }

theorem chainFits_byteFile : ChainFits byteVolume byteFile := by
  refine ⟨by decide, fun n hgoing => ?_⟩
  have hle : n ≤ 1 := by
    by_contra hn
    exact absurd (hgoing 1 (by omega)) (by decide)
  exact Nat.le_trans (Nat.mul_le_mul_right _ hle) (by decide)

theorem readsSafely_byteFile : ReadsSafely byteVolume freshHeap byteFile := by
  have hinit : initHeapAlloc (fun _ => 0) pageSize = some freshHeap := (Option.some_get _).symm
  have hfind : findEntry byteVolume (literal "/foo.txt") = .ok byteFile := by decide +kernel
  refine ((fat32Read_safe_iff hinit (by decide) .refl hfind rfl rfl).1 chainFits_byteFile).mpr
    ⟨by decide, ?_⟩
  have hroom : ((freshHeap.malloc (outBufferSize byteVolume 1)).bind fun r =>
      r.1.bind fun _ => (r.2.malloc 512).bind Prod.fst).isSome = true := by decide +kernel
  obtain ⟨tempBuffer, htemp⟩ := Option.isSome_iff_exists.mp hroom
  simp only [Option.bind_eq_some_iff] at htemp
  obtain ⟨⟨-, h₁⟩, hout, outBuffer, rfl, ⟨-, h₂⟩, htemp, rfl⟩ := htemp
  exact ⟨outBuffer, h₁, tempBuffer, h₂, hout, htemp⟩

/-- The empty file has no cluster. -/
theorem not_readsSafely_emptyFile :
    ¬ ∀ (m : Mem) (heapStart : Nat) (h₀ h : Heap) (live : Live) (v : Volume) (path : CString)
      (entry : Entry), initHeapAlloc m heapStart = some h₀ → heapStart + initHeapSize < 2 ^ 64 →
      HeapReach (h₀, []) (h, live) → findEntry v path = .ok entry → entry.found = true →
      entry.isDirectory = false → ReadsSafely v h entry := by
  intro hall
  have hinit : initHeapAlloc (fun _ => 0) pageSize = some freshHeap := (Option.some_get _).symm
  have hfind : findEntry fooVolume (literal "/foo.txt") =
      .ok { fooRecord.toEntry (literal "foo.txt") with found := true } := by
    decide +kernel
  have hsafe := hall _ _ _ _ _ _ _ _ hinit (by decide) .refl hfind rfl rfl
  exact absurd (chain_of_readsSafely hsafe).1 (by decide)

end EszOs
