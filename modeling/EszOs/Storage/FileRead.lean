import EszOs.Memory.HeapRuns
import EszOs.Storage.ClusterChain

/-!
# Reading a file (`storage/filesystem/fat32/fat32.cpp`)

On a disk with sectors of 512 bytes the FAT is an array of 32-bit words and a cluster is a range of
bytes. `fat32_read` puts the clusters of a chain one after the other into a buffer on the heap.

* `getNextCluster_disk`, `clusterToLba_eq`: the arithmetic finds the entry of the FAT and the cluster.
* `copyCluster_cases`: one iteration appends the bytes of a cluster.
* `fat32Read_contents`: the buffer is the file, with a zero behind it.
-/

namespace EszOs

open Bytes Blocks

/-! ## The FAT and the clusters of a disk -/

/-- The entry of the FAT: the low 28 bits of its word. -/
def Disk.fatEntry (disk : Disk) (context : FAT32Context) (cluster : Nat) : Nat :=
  readLE (disk.bytesFrom context.fatStartLBA) (4 * cluster) 4 % 2 ^ 28

/-- The first sector of a cluster. -/
def clusterLba (context : FAT32Context) (cluster : Nat) : Nat :=
  context.dataRegionStartLBA + (cluster - 2) * context.sectorsPerCluster

def Disk.clusterBytes (disk : Disk) (context : FAT32Context) (cluster : Nat) : List UInt8 :=
  (List.range context.clusterSizeInBytes).map (disk.bytesFrom (clusterLba context cluster))

variable {disk : Disk} {context : FAT32Context} {cluster : Nat}

/-- `get_next_cluster` reads the entry of the FAT. -/
theorem getNextCluster_disk {hpos : 0 < context.bytesPerSector}
    (h512 : context.bytesPerSector = sectorSize) (h : IsDataCluster cluster) :
    getNextCluster (disk.volume context hpos) cluster = disk.fatEntry context cluster := by
  have hlt : cluster < 0x0FFFFFF8 := h.2
  have hfat := context.fatStartLBA_lt
  have hoffset : u32 (cluster * 4) = cluster * 4 := u32_of_lt (by omega)
  have hsector : getFatSectorToRead context cluster = cluster * 4 / 512 + context.fatStartLBA := by
    rw [getFatSectorToRead, hoffset, h512, sectorSize]
    exact u64_of_lt (by omega)
  have hmask : (0x0FFFFFFF : Nat) = 2 ^ 28 - 1 := rfl
  have hshift : readLE (disk.bytesFrom (getFatSectorToRead context cluster))
      (cluster * 4 % sectorSize / 4 * 4) 4 =
        readLE (disk.bytesFrom context.fatStartLBA) (4 * cluster) 4 := by
    refine readLE_shift fun k hk => ?_
    rw [hsector, Disk.bytesFrom, Disk.bytesFrom]
    simp only [sectorSize]
    have hlba : cluster * 4 / 512 + context.fatStartLBA + (cluster * 4 % 512 / 4 * 4 + k) / 512 =
        context.fatStartLBA + (4 * cluster + k) / 512 := by omega
    have hbyte : (cluster * 4 % 512 / 4 * 4 + k) % 512 = (4 * cluster + k) % 512 := by omega
    rw [hlba, hbyte]
  simp only [getNextCluster, Disk.volume, hoffset, h512]
  rw [hshift, hmask, Nat.and_two_pow_sub_one_eq_mod, Disk.fatEntry]

/-- `cluster_to_lba` does not wrap below sector `2 ^ 32`. -/
theorem clusterToLba_eq (h : IsDataCluster cluster) (hspc : 0 < context.sectorsPerCluster)
    (hbelow : clusterLba context cluster + context.sectorsPerCluster ≤ 2 ^ 32) :
    clusterToLba context cluster = clusterLba context cluster := by
  have h2 := h.1
  have hlt : cluster < 0x0FFFFFF8 := h.2
  rw [clusterLba] at hbelow ⊢
  have hcluster : u32 (cluster + 2 ^ 32 - 2) = cluster - 2 := by
    rw [u32]
    omega
  rw [clusterToLba, hcluster, u32_of_lt (by omega), u64_of_lt (by omega)]

/-! ## One iteration -/

variable {v : Volume} {start size total outBuffer : Nat} {h : Heap} {live : Live} {bs : List Block}

/-- The bytes of a cluster as they are read. -/
def Volume.clusterBytes (v : Volume) (cluster : Nat) : List UInt8 :=
  (List.range v.context.clusterSizeInBytes).map
    (v.read (clusterToLba v.context cluster) v.context.sectorsPerCluster)

@[simp] theorem Volume.clusterBytes_length (v : Volume) (cluster : Nat) :
    (v.clusterBytes cluster).length = v.context.clusterSizeInBytes := by
  simp [Volume.clusterBytes]

theorem FAT32Context.clusterSizeInBytes_lt (context : FAT32Context) :
    context.clusterSizeInBytes < 2 ^ 24 := by
  rw [context.clusterSizeInBytes_eq, show 2 ^ 24 = 2 ^ 8 * 2 ^ 16 from rfl]
  exact Nat.mul_lt_mul'' context.sectorsPerCluster_lt context.bytesPerSector_lt

/-- An allocation fails if no block fits. Else it keeps what is live, and the blocks are as before when
it is released. -/
theorem allocate_cases (hi : HeapInv start size h live bs) (n : Nat) :
    (allocate h n = .error .allocationFailed ∧ ∀ c ∈ bs, Tiled.Unfit n c) ∨
      ∃ p h' bs', allocate h n = .ok (p, h') ∧ HeapInv start size h' ((p, n) :: live) bs' ∧
        (∀ q ∈ live, ∀ i < q.2, h'.mem (q.1 + i) = h.mem (q.1 + i)) ∧
        ∀ h₁, HeapInv start size h₁ ((p, n) :: live) bs' →
          ∃ h₂, h₁.free p = some h₂ ∧ HeapInv start size h₂ live bs := by
  unfold allocate
  rcases hi.malloc_cases n with ⟨hu, hm⟩ | ⟨pre, b, post, rfl, -, hb, hm⟩
  · exact .inl ⟨by rw [hm], hu⟩
  · have hfree : b.used = false := by
      rw [Tiled.Unfit, not_or] at hb
      exact Bool.eq_false_of_not_eq_true hb.2
    refine .inr ⟨_, _, _, by rw [hm], hi.take hb, fun q hq i hlt => hi.malloc_keeps hm hq hlt, ?_⟩
    exact fun h₁ hi₁ => hi.free_carve hfree hi₁

theorem allocate_eq_ok {n : Nat} {r : Nat × Heap} :
    allocate h n = .ok r ↔ h.malloc n = some (some r.1, r.2) := by
  rw [allocate]
  rcases h.malloc n with _ | ⟨_ | ptr, h'⟩
  · simp
  · simp
  · simp [Prod.ext_iff]

theorem release_eq_ok {p : Nat} {h' : Heap} : release h p = .ok h' ↔ h.free p = some h' := by
  rw [release]
  cases h.free p with
  | none => exact iff_of_false nofun nofun
  | some h₂ => simp

theorem readSectors_inside {m : Mem} {lba count ramOutputPtr i : Nat} (h : i < count * sectorSize) :
    readSectors v m lba count ramOutputPtr (ramOutputPtr + i) = v.read lba count i := by
  rw [readSectors, if_pos (by omega), Nat.add_sub_cancel_left]

theorem readSectors_outside {m : Mem} {lba count ramOutputPtr x : Nat}
    (h : x < ramOutputPtr ∨ ramOutputPtr + count * sectorSize ≤ x) :
    readSectors v m lba count ramOutputPtr x = m x := if_neg (by omega)

/-- One iteration appends the bytes of its cluster to what is in the buffer; the blocks stay as they
are. -/
theorem copyCluster_cases (h512 : v.context.bytesPerSector = sectorSize)
    (hi : HeapInv start size h live bs) (hout : (outBuffer, total) ∈ live) {s : ChainState}
    (hfit : s.bufferWriteOffset + v.context.clusterSizeInBytes ≤ total) {data : List UInt8}
    (hlength : data.length = s.bufferWriteOffset) (hdata : BytesAt h.mem outBuffer data) :
    (copyCluster v outBuffer s h = .error .allocationFailed ∧
        ∀ c ∈ bs, Tiled.Unfit v.context.clusterSizeInBytes c) ∨
      ∃ h', copyCluster v outBuffer s h = .ok h' ∧ HeapInv start size h' live bs ∧
        BytesAt h'.mem outBuffer (data ++ v.clusterBytes s.currCluster) := by
  have hcount := v.context.clusterSizeInBytes_eq
  have hlt := v.context.clusterSizeInBytes_lt
  rw [h512] at hcount
  rcases allocate_cases hi v.context.clusterSizeInBytes with
    ⟨hfail, hunfit⟩ | ⟨tempBuffer, h₁, bs₁, hok, hi₁, hkeep₁, hundo⟩
  · exact .inl ⟨by rw [copyCluster, hfail]; rfl, hunfit⟩
  right
  have htemp : (tempBuffer, v.context.clusterSizeInBytes) ∈
      (tempBuffer, v.context.clusterSizeInBytes) :: live := List.mem_cons_self
  have hout₁ := List.mem_cons_of_mem (tempBuffer, v.context.clusterSizeInBytes) hout
  have hapart := hi₁.payload_apart htemp (q := (outBuffer, total)) (by simpa using hout)
  have hbounds := (hi₁.payload_bounds hout₁).2.1
  have hwrap := hi₁.tiled.noWrap
  simp only at hapart hbounds
  have hptr : u64 (outBuffer + s.bufferWriteOffset) = outBuffer + s.bufferWriteOffset :=
    u64_of_lt (by omega)
  -- The heap after the read, after the copy, and after `free`.
  obtain ⟨m₂, hm₂⟩ : ∃ m₂, m₂ = readSectors v h₁.mem (clusterToLba v.context s.currCluster)
    v.context.sectorsPerCluster tempBuffer := ⟨_, rfl⟩
  obtain ⟨m₃, hm₃⟩ : ∃ m₃, m₃ = memoryCopy m₂ (outBuffer + s.bufferWriteOffset) tempBuffer
    v.context.clusterSizeInBytes := ⟨_, rfl⟩
  have hcopy := fun x => @memoryCopy_apply m₂ (outBuffer + s.bufferWriteOffset) tempBuffer
    v.context.clusterSizeInBytes x (by omega)
  rw [← hm₃] at hcopy
  have hi₂ : HeapInv start size { h₁ with mem := m₂ } _ bs₁ := hi₁.writes htemp fun x hx => by
    rw [hm₂, readSectors_outside (by omega)]
  have hi₃ : HeapInv start size { h₁ with mem := m₃ } _ bs₁ := hi₂.writes hout₁ fun x hx => by
    rw [hcopy, if_neg (by omega)]
  obtain ⟨h', hfree, hi'⟩ := hundo _ hi₃
  have hkeep' : ∀ i < total, _ := fun i hlt => hi₃.free_keeps htemp hfree hout₁ hlt
  refine ⟨h', ?_, hi', bytesAt_append.mpr ⟨hdata.congr fun i hlt => ?_, ?_⟩⟩
  · simp only [copyCluster, hok, Except.bind, hptr, ← hm₂, ← hm₃]
    exact release_eq_ok.mpr hfree
  · have hin : i < total := by omega
    rw [hkeep' i hin]
    simp only
    rw [hcopy, if_neg (by omega), hm₂, readSectors_outside (by omega)]
    exact hkeep₁ _ hout i hin
  · refine bytesAt_map_range.mpr fun i hlt => ?_
    rw [hlength, Nat.add_assoc, hkeep' _ (by omega)]
    simp only
    rw [hcopy, if_pos (by omega), ← Nat.add_assoc, Nat.add_sub_cancel_left, hm₂,
      readSectors_inside (by omega)]

/-! ## The loop -/

/-- The loop appends the clusters of the chain. -/
theorem chainLoop_cases (h512 : v.context.bytesPerSector = sectorSize) {startCluster : Nat}
    {chain : List Nat} (hchain : IsClusterChain v startCluster chain) {fuel : Nat}
    (hfuel : chain.length ≤ fuel) {s : ChainState} (hs : s.currCluster = startCluster)
    (hi : HeapInv start size h live bs) (hout : (outBuffer, total) ∈ live)
    (htotal : total < 2 ^ 64)
    (hfit : s.bufferWriteOffset + chain.length * v.context.clusterSizeInBytes ≤ total)
    {data : List UInt8} (hlength : data.length = s.bufferWriteOffset)
    (hdata : BytesAt h.mem outBuffer data) :
    (chainLoop v outBuffer fuel s h = .error .allocationFailed ∧
        ∀ c ∈ bs, Tiled.Unfit v.context.clusterSizeInBytes c) ∨
      ∃ h', chainLoop v outBuffer fuel s h = .ok h' ∧ HeapInv start size h' live bs ∧
        BytesAt h'.mem outBuffer (data ++ chain.flatMap v.clusterBytes) := by
  induction hchain generalizing fuel s h data with
  | stop hstop =>
    have hreads : ¬ s.Reads := by rwa [ChainState.Reads, hs]
    refine .inr ⟨h, ?_, hi, by simpa using hdata⟩
    cases fuel <;> rw [chainLoop, if_neg hreads]
  | @step c cs hc _ ih =>
    have hreads : s.Reads := by rwa [ChainState.Reads, hs]
    obtain ⟨fuel, rfl⟩ : ∃ k, fuel = k + 1 := ⟨fuel - 1, by simp at hfuel; omega⟩
    rw [List.length_cons, Nat.succ_mul] at hfit
    rw [chainLoop, if_pos hreads]
    rcases copyCluster_cases h512 hi hout (by omega) hlength hdata with
      ⟨hfail, hunfit⟩ | ⟨h₁, hok, hi₁, hdata₁⟩
    · exact .inl ⟨by rw [hfail]; rfl, hunfit⟩
    · rw [hok, List.flatMap_cons, ← List.append_assoc, ← hs]
      have hoffset : (s.next v).bufferWriteOffset =
          s.bufferWriteOffset + v.context.clusterSizeInBytes := by
        rw [ChainState.next_bufferWriteOffset, u64_of_lt (by omega)]
      refine ih (by simpa using hfuel) (by rw [← hs]; rfl) hi₁ (by rw [hoffset]; omega) ?_ hdata₁
      rw [hoffset, List.length_append, hlength, Volume.clusterBytes_length]

/-! ## The file -/

/-- The buffer has room for the clusters of the file and a zero. -/
theorem outBufferSize_eq {n : Nat} (hn : n < 2 ^ 32) :
    outBufferSize v n = divideRoundUp n v.context.clusterSizeInBytes * v.context.clusterSizeInBytes + 1 := by
  have hlt := v.context.clusterSizeInBytes_lt
  have hle : divideRoundUp n v.context.clusterSizeInBytes * v.context.clusterSizeInBytes ≤
      n + v.context.clusterSizeInBytes := by
    rcases Nat.eq_zero_or_pos v.context.clusterSizeInBytes with h0 | hpos
    · simp [h0]
    · rw [divideRoundUp_eq hpos (by omega)]
      exact (Nat.div_mul_le_self _ _).trans (by omega)
  exact u64_of_lt (by omega)

/-- `read_cluster_chain` returns the clusters of a chain that fits. -/
theorem readClusterChain_cases (h512 : v.context.bytesPerSector = sectorSize) {startCluster : Nat}
    {chain : List Nat} (hchain : IsClusterChain v startCluster chain) (hne : chain ≠ []) {fuel n : Nat}
    (hfuel : chain.length ≤ fuel) (hi : HeapInv start size h live bs) (hn : n < 2 ^ 32)
    (hlength : chain.length = divideRoundUp n v.context.clusterSizeInBytes) :
    readClusterChain v fuel h startCluster n = .error .allocationFailed ∨
      ∃ p h' bs', readClusterChain v fuel h startCluster n = .ok (p, h') ∧
        HeapInv start size h' ((p, outBufferSize v n) :: live) bs' ∧
        BytesAt h'.mem p (chain.flatMap v.clusterBytes) := by
  have hdata : IsDataCluster startCluster := by
    cases hchain with
    | stop _ => exact absurd rfl hne
    | step hdata _ => exact hdata
  rw [readClusterChain, if_neg (not_not_intro hdata)]
  rcases allocate_cases hi (outBufferSize v n) with ⟨hfail, -⟩ | ⟨p, h₁, bs₁, hok, hi₁, -⟩
  · exact .inl (by rw [hfail]; rfl)
  rw [hok]
  have hfit : (ChainState.first startCluster).bufferWriteOffset +
      chain.length * v.context.clusterSizeInBytes ≤ outBufferSize v n := by
    rw [ChainState.first_bufferWriteOffset, outBufferSize_eq hn, hlength]
    omega
  rcases chainLoop_cases h512 hchain hfuel (s := .first startCluster) rfl hi₁ List.mem_cons_self
    (u64_lt _) hfit List.length_nil (bytesAt_nil _ _) with ⟨hfail, -⟩ | ⟨h', hloop, hi', hbytes⟩
  · exact .inl (by simp only [Except.bind, hfail, Except.map])
  · exact .inr ⟨p, h', bs₁, by simp only [Except.bind, hloop, Except.map], hi', hbytes⟩

/-- The volume of a disk has the clusters of the disk. -/
theorem clusterBytes_disk {hpos : 0 < context.bytesPerSector} (h : IsDataCluster cluster)
    (hspc : 0 < context.sectorsPerCluster)
    (hbelow : clusterLba context cluster + context.sectorsPerCluster ≤ 2 ^ 32) :
    (disk.volume context hpos).clusterBytes cluster = disk.clusterBytes context cluster := by
  show (List.range _).map (disk.bytesFrom (clusterToLba context cluster)) = _
  rw [clusterToLba_eq h hspc hbelow, Disk.clusterBytes]
  rfl

/-- `fat32_read` of a file with as many clusters as its size needs: the buffer has the bytes of the
clusters up to the size, and then a zero. -/
theorem fat32Read_contents {m : Mem} {heapStart : Nat} {h₀ : Heap}
    (hinit : initHeapAlloc m heapStart = some h₀) (hwrap : heapStart + initHeapSize < 2 ^ 64)
    (hr : HeapReach (h₀, []) (h, live)) {hpos : 0 < context.bytesPerSector}
    (h512 : context.bytesPerSector = sectorSize) (hspc : 1 ≤ context.sectorsPerCluster)
    {entry : Entry} (hsize : 0 < entry.size) (hsize32 : entry.size < 2 ^ 32) {chain : List Nat}
    (hchain : Chains.IsChain (disk.fatEntry context) IsDataCluster entry.firstCluster chain)
    (hlength : chain.length = divideRoundUp entry.size context.clusterSizeInBytes)
    (hbelow : ∀ c ∈ chain, clusterLba context c + context.sectorsPerCluster ≤ 2 ^ 32)
    {fuel : Nat} (hfuel : chain.length ≤ fuel)
    (hmalloc : fat32Read (disk.volume context hpos) fuel h entry ≠ .error .allocationFailed) :
    ∃ fileData h', fat32Read (disk.volume context hpos) fuel h entry = .ok (fileData, h') ∧
      (∀ i < entry.size,
        (chain.flatMap (disk.clusterBytes context))[i]? = some (h'.mem (fileData + i))) ∧
      h'.mem (fileData + entry.size) = 0 := by
  obtain ⟨bs, hi⟩ := (heapInv_init hinit hwrap).reach hr
  have hlt := context.clusterSizeInBytes_lt
  have hcs : 0 < context.clusterSizeInBytes := by
    rw [context.clusterSizeInBytes_eq]
    exact Nat.mul_pos hspc hpos
  have hle := le_divideRoundUp_mul (a := entry.size) hcs (by omega)
  have hne : chain ≠ [] := by
    rintro rfl
    rw [← hlength] at hle
    simp at hle
    omega
  have hvolume : IsClusterChain (disk.volume context hpos) entry.firstCluster chain :=
    hchain.congr fun c hc => (getNextCluster_disk h512 hc).symm
  have hbytes : chain.flatMap (disk.volume context hpos).clusterBytes =
      chain.flatMap (disk.clusterBytes context) :=
    List.flatMap_congr fun c hc => clusterBytes_disk (hchain.data_of_mem hc) hspc (hbelow c hc)
  rcases readClusterChain_cases h512 hvolume hne hfuel hi hsize32 hlength with
    hfail | ⟨p, h', bs', hok, hi', hread⟩
  · exact absurd (by rw [fat32Read, hfail]; rfl) hmalloc
  rw [hbytes] at hread
  have htotal : outBufferSize (disk.volume context hpos) entry.size =
      chain.length * context.clusterSizeInBytes + 1 := by
    rw [outBufferSize_eq hsize32, hlength]
    rfl
  have hbounds := (hi'.payload_bounds List.mem_cons_self).2.1
  have hend := hi'.tiled.noWrap
  rw [← hlength] at hle
  have hptr : u64 (p + entry.size) = p + entry.size := u64_of_lt (by omega)
  refine ⟨p, _, by rw [fat32Read, hok]; rfl, fun i hlt => ?_, ?_⟩
  · have hdata : i < (chain.flatMap (disk.clusterBytes context)).length := by
      rw [List.length_flatMap]
      simp [Disk.clusterBytes]
      omega
    simp only [hptr]
    rw [store_of_ne (by omega), hread.getElem? hdata]
  · simp only [hptr]
    exact store_self _ _ _

/-- A heap without allocations. -/
def freshHeap : Heap := (initHeapAlloc (fun _ => 0) pageSize).get (by decide)

/-- A disk with a file in the clusters 3 and 2. -/
def scatteredDisk : Disk := fatDisk [0, 0, eocStart, 2]

def scatteredFile : Entry := { size := 600, firstCluster := 3, found := true }

theorem fat32Read_scatteredFile :
    ∃ fileData h',
      fat32Read (scatteredDisk.volume smallContext smallContext_pos) 2 freshHeap scatteredFile =
        .ok (fileData, h') ∧
      (∀ i < 600, ([3, 2].flatMap (scatteredDisk.clusterBytes smallContext))[i]? =
        some (h'.mem (fileData + i))) ∧
      h'.mem (fileData + 600) = 0 := by
  have hinit : initHeapAlloc (fun _ => 0) pageSize = some freshHeap := (Option.some_get _).symm
  have hchain : Chains.IsChain (scatteredDisk.fatEntry smallContext) IsDataCluster
      scatteredFile.firstCluster [3, 2] :=
    .step (by decide) (.step (by decide +kernel) (.stop (by decide +kernel)))
  have hok : (fat32Read (scatteredDisk.volume smallContext smallContext_pos) 2 freshHeap
      scatteredFile).isOk = true := by
    decide +kernel
  refine fat32Read_contents hinit (by decide) .refl rfl (by decide) (by decide) (by decide) hchain
    (by decide) (by decide) (Nat.le_refl _) fun hfail => ?_
  rw [hfail] at hok
  cases hok

end EszOs
