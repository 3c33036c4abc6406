import EszOs.Lib.Faults
import EszOs.Storage.Lookup
import EszOs.Storage.ClusterChain

/-!
# Reads that fail (`storage/filesystem/fat32/fat32.cpp`, `io/ahci/ahci.cpp`)

`AHCI_READ_DMA_EXT` does not tell its callers whether it has read anything. If it has not they take
what is in the buffer for the sectors. A run is given by its `Surroundings`: how the reads end, and
what the buffers hold before.

* `findEntry_delivered`, `fat32Read_delivered`: without a failed read `find_entry` is the one of
  `Storage/Fat32.lean`, and `fat32_read` reads the chain of the one of `Storage/ClusterChain.lean`.
* `Call.run_agree`: without a failed read the previous contents of the buffers do not matter.
* `reportsFaults_iff`: a call reports every failed read exactly if no contents of the buffers can make
  it succeed.

What is copied where is the business of `Storage/FileRead.lean`: the data of a file is the list of the
buffers of its clusters.
-/

namespace EszOs

namespace FaultyReads

open Bytes
open PathLookup (bind_eq_ok)

/-! ## Runs -/

/-- How a read ends. -/
inductive ReadOutcome
  | delivered
  /-- There are no pages for the command, and the buffer stays as it is. -/
  | notStarted
  /-- The command times out, and what is in its data buffer then is copied. -/
  | timedOut (dataBuffer : Mem)

/-- How the reads of a run end, and what their buffers hold before. -/
structure Surroundings where
  outcome : Nat → ReadOutcome
  previous : Nat → Mem

/-- The number of the reads so far, and whether one of them failed. -/
structure ReadLog where
  reads : Nat
  failed : Bool

/-- Why a call does not return. -/
inductive RunFault
  | find (fault : FindFault)
  /-- A loop is still running. -/
  | outOfFuel

abbrev ReadProgram := Program RunFault ReadLog

section Source

variable (w : Surroundings) (v : Volume)

/-- `AHCI_READ_DMA_EXT`: what the buffer holds then. -/
def ahciRead (lba count : Nat) : ReadProgram Mem := do
  let log ← get
  match w.outcome log.reads with
  | .delivered =>
    set { log with reads := log.reads + 1 }
    return v.read lba count
  | .notStarted =>
    set (ReadLog.mk (log.reads + 1) true)
    return w.previous log.reads
  | .timedOut dataBuffer =>
    set (ReadLog.mk (log.reads + 1) true)
    return dataBuffer

/-- The entries that `get_entries_in_dir` puts out for what is in the buffer. -/
def listing (tempBuffer : Mem) : Except DirFault (List Entry) :=
  (getEntriesInDir v.context.clusterSizeInBytes (directoryEntries tempBuffer)
    (clearedEntries v.context.clusterSizeInBytes) 0).map Listing.entries

/-- `read_dir_entries` into a cleared array: the entries. -/
def readDirEntries (cluster : Nat) : ReadProgram (List Entry) :=
  if ¬ IsDataCluster cluster then return []
  else do
    let tempBuffer ← ahciRead w v (clusterToLba v.context cluster) v.context.sectorsPerCluster
    match listing v tempBuffer with
    | .error fault => throw (.find (.directory fault))
    | .ok entries => return entries

/-- The loop of `find_entry` over all sections but the last: the cluster of the directory. -/
def findEntryLoop : List CString → Nat → ReadProgram (Option Nat)
  | [], currCluster => return some currCluster
  | pathSection :: pathSections, currCluster => do
    let entries ← readDirEntries w v currCluster
    match entries.find? fun e => e.isDirectory && strEqual e.name pathSection with
    | none => return none
    | some e => findEntryLoop pathSections e.firstCluster

/-- The lookup of the last section. -/
def findLast (pathSection : CString) (currCluster : Nat) : ReadProgram Entry := do
  let entries ← readDirEntries w v currCluster
  match entries.find? fun e => strEqual e.name pathSection with
  | none => return .empty
  | some e => return { e with found := true }

/-- `find_entry` behind `str_split`. -/
def findSections (pathSections : List CString) : ReadProgram Entry := do
  let found ← findEntryLoop w v pathSections.dropLast v.context.rootCluster
  match found with
  | none => return .empty
  | some currCluster => findLast w v (pathSections.getLastD []) currCluster

def findEntry (path : CString) : ReadProgram Entry :=
  let normalizedPath := normalizedPath path
  if normalizedPath = [] ∨ isRootPath normalizedPath then return rootEntry v
  else if maxPathDepth < (strSplit normalizedPath slash).length then
    throw (.find .pathSectionsOverrun)
  else findSections w v (strSplit normalizedPath slash)

/-- `get_entries`: the entries in `outEntries`; their number is the result. -/
def getEntries (path : CString) : ReadProgram (List Entry) := do
  let dir ← findEntry w v path
  if ¬ dir.found ∨ ¬ dir.isDirectory then return []
  else readDirEntries w v dir.firstCluster

/-- `get_next_cluster`, with the buffer on the stack. -/
def getNextCluster (cluster : Nat) : ReadProgram Nat := do
  let offsetInSector := u32 (cluster * 4) % v.context.bytesPerSector
  let buffer ← ahciRead w v (getFatSectorToRead v.context cluster) 1
  return readLE buffer (offsetInSector / 4 * 4) 4 &&& 0x0FFFFFFF

/-- The loop of `read_cluster_chain`: the buffers that are copied. -/
def chainLoop : Nat → Nat → ReadProgram (List Mem)
  | 0, currCluster => if IsDataCluster currCluster then throw .outOfFuel else return []
  | fuel + 1, currCluster =>
    if IsDataCluster currCluster then do
      let tempBuffer ← ahciRead w v (clusterToLba v.context currCluster) v.context.sectorsPerCluster
      let next ← getNextCluster w v currCluster
      let rest ← chainLoop fuel next
      return tempBuffer :: rest
    else return []

/-- `fat32_read`: the data, `none` for the null pointer. -/
def fat32Read (fuel : Nat) (entry : Entry) : ReadProgram (Option (List Mem)) :=
  if ¬ IsDataCluster entry.firstCluster then return none
  else do
    let fileData ← chainLoop w v fuel entry.firstCluster
    return some fileData

end Source

/-! ## Calls -/

/-- A call of the driver. -/
inductive Call
  | findEntry (path : CString)
  | getEntries (path : CString)
  | fat32Read (entry : Entry)

inductive Answer
  | entry (e : Entry)
  | entries (es : List Entry)
  | data (fileData : Option (List Mem))

def Call.run (w : Surroundings) (v : Volume) (fuel : Nat) : Call → ReadProgram Answer
  | findEntry path => do return .entry (← FaultyReads.findEntry w v path)
  | getEntries path => do return .entries (← FaultyReads.getEntries w v path)
  | fat32Read entry => do return .data (← FaultyReads.fat32Read w v fuel entry)

/-- The answer that reports a failure: not found, no entries, the null pointer. -/
def Call.failure : Call → Answer
  | findEntry _ => .entry .empty
  | getEntries _ => .entries []
  | fat32Read _ => .data none

/-- The call returns `answer`, after reads that are in `log`. -/
def Call.Returns (call : Call) (w : Surroundings) (v : Volume) (fuel : Nat) (answer : Answer)
    (log : ReadLog) : Prop :=
  Program.exec (call.run w v fuel) ⟨0, false⟩ = (.ok answer, log)

/-- After a failed read the call reports a failure, and what the buffers hold before makes no
difference to the answer. -/
structure Call.ReportsFaults (call : Call) (v : Volume) : Prop where
  failure {w : Surroundings} {fuel : Nat} {answer : Answer} {log : ReadLog} :
    call.Returns w v fuel answer log → log.failed = true → answer = call.failure
  independent {w w' : Surroundings} {fuel : Nat} {answer answer' : Answer} {log log' : ReadLog} :
    w.outcome = w'.outcome → call.Returns w v fuel answer log →
      call.Returns w' v fuel answer' log' → answer = answer'

/-! ## What the buffers hold before -/

section

variable {w w' : Surroundings} {v : Volume}

/-- Until a read fails. -/
abbrev Agree {α : Type} (m m' : ReadProgram α) : Prop :=
  Program.Agree (fun log => log.failed = true) m m'

theorem ahciRead_agree (h : w.outcome = w'.outcome) (lba count : Nat) :
    Agree (ahciRead w v lba count) (ahciRead w' v lba count) := by
  have hkeep : ∀ w : Surroundings, Program.Keeps (fun s s' : ReadLog => s.failed = true →
      s'.failed = true) (ahciRead w v lba count) := by
    intro w log hfailed
    unfold ahciRead
    rw [Program.exec_bind_ok (Program.exec_get log)]
    cases w.outcome log.reads with
    | delivered => exact hfailed
    | notStarted => rfl
    | timedOut dataBuffer => rfl
  refine ⟨fun log => ?_, hkeep w, hkeep w'⟩
  unfold ahciRead
  rw [Program.exec_bind_ok (Program.exec_get log), Program.exec_bind_ok (Program.exec_get log), h]
  cases w'.outcome log.reads with
  | delivered => exact .inl rfl
  | notStarted => exact .inr ⟨rfl, rfl⟩
  | timedOut dataBuffer => exact .inr ⟨rfl, rfl⟩

theorem readDirEntries_agree (h : w.outcome = w'.outcome) (cluster : Nat) :
    Agree (readDirEntries w v cluster) (readDirEntries w' v cluster) := by
  unfold readDirEntries
  split
  · exact Program.Agree.pure _
  · refine (ahciRead_agree h _ _).bind fun tempBuffer => ?_
    cases listing v tempBuffer with
    | error fault => exact Program.Agree.throw _
    | ok entries => exact Program.Agree.pure entries

theorem findEntryLoop_agree (h : w.outcome = w'.outcome) (pathSections : List CString)
    (currCluster : Nat) :
    Agree (findEntryLoop w v pathSections currCluster)
      (findEntryLoop w' v pathSections currCluster) := by
  induction pathSections generalizing currCluster with
  | nil => exact Program.Agree.pure _
  | cons pathSection pathSections ih =>
    refine (readDirEntries_agree h currCluster).bind fun entries => ?_
    cases entries.find? fun e => e.isDirectory && strEqual e.name pathSection with
    | none => exact Program.Agree.pure none
    | some e => exact ih e.firstCluster

theorem findEntry_agree (h : w.outcome = w'.outcome) (path : CString) :
    Agree (findEntry w v path) (findEntry w' v path) := by
  rw [findEntry, findEntry]
  split
  · exact Program.Agree.pure _
  split
  · exact Program.Agree.throw _
  refine (findEntryLoop_agree h _ _).bind fun found => ?_
  cases found with
  | none => exact Program.Agree.pure _
  | some currCluster =>
    refine (readDirEntries_agree h currCluster).bind fun entries => ?_
    cases entries.find? fun e =>
        strEqual e.name ((strSplit (normalizedPath path) slash).getLastD []) with
    | none => exact Program.Agree.pure _
    | some e => exact Program.Agree.pure _

theorem getEntries_agree (h : w.outcome = w'.outcome) (path : CString) :
    Agree (getEntries w v path) (getEntries w' v path) := by
  refine (findEntry_agree h path).bind fun dir => ?_
  split
  · exact Program.Agree.pure _
  · exact readDirEntries_agree h dir.firstCluster

theorem chainLoop_agree (h : w.outcome = w'.outcome) (fuel currCluster : Nat) :
    Agree (chainLoop w v fuel currCluster) (chainLoop w' v fuel currCluster) := by
  induction fuel generalizing currCluster with
  | zero =>
    rw [chainLoop, chainLoop]
    split
    · exact Program.Agree.throw _
    · exact Program.Agree.pure _
  | succ fuel ih =>
    rw [chainLoop, chainLoop]
    split
    · refine (ahciRead_agree h _ _).bind fun tempBuffer => ?_
      have hnext : Agree (getNextCluster w v currCluster) (getNextCluster w' v currCluster) :=
        (ahciRead_agree h _ _).bind fun buffer => Program.Agree.pure _
      refine hnext.bind fun next => ?_
      exact (ih next).bind fun rest => Program.Agree.pure _
    · exact Program.Agree.pure _

theorem fat32Read_agree (h : w.outcome = w'.outcome) (fuel : Nat) (entry : Entry) :
    Agree (fat32Read w v fuel entry) (fat32Read w' v fuel entry) := by
  unfold fat32Read
  split
  · exact Program.Agree.pure _
  · exact (chainLoop_agree h fuel _).bind fun fileData => Program.Agree.pure _

/-- Two runs that differ in the previous contents only are the same, or a read fails in both. -/
theorem Call.run_agree (call : Call) (h : w.outcome = w'.outcome) (fuel : Nat) :
    Agree (call.run w v fuel) (call.run w' v fuel) := by
  cases call with
  | findEntry path => exact (findEntry_agree h path).bind fun _ => Program.Agree.pure _
  | getEntries path => exact (getEntries_agree h path).bind fun _ => Program.Agree.pure _
  | fat32Read entry => exact (fat32Read_agree h fuel entry).bind fun _ => Program.Agree.pure _

end

/-! ## Runs without a failed read -/

section

variable {w : Surroundings} {v : Volume}

/-- Every read delivers the sectors. -/
def Delivers (w : Surroundings) : Prop := ∀ i, w.outcome i = .delivered

/-- The result of the program. -/
def Yields {α : Type} (m : ReadProgram α) (r : Except RunFault α) : Prop :=
  ∀ log, (Program.exec m log).1 = r

theorem Yields.bind {α β ε : Type} {m : ReadProgram α} {f : α → ReadProgram β} {x : Except ε α}
    {q : α → Except ε β} {g : ε → RunFault} (hm : Yields m (x.mapError g))
    (hf : ∀ a, Yields (f a) ((q a).mapError g)) : Yields (m >>= f) ((x.bind q).mapError g) := by
  intro log
  have hr := hm log
  rw [Program.exec_bind]
  generalize Program.exec m log = s at hr ⊢
  obtain ⟨r, log'⟩ := s
  subst hr
  cases x with
  | error e => rfl
  | ok a => exact hf a log'

theorem Yields.map {α β ε : Type} {m : ReadProgram α} {f : α → ReadProgram β} {x : Except ε α}
    {q : α → β} {g : ε → RunFault} (hm : Yields m (x.mapError g)) (hf : ∀ a, Yields (f a) (.ok (q a))) :
    Yields (m >>= f) ((x.map q).mapError g) := by
  have hbind : x.map q = x.bind fun a => .ok (q a) := by cases x <;> rfl
  rw [hbind]
  exact hm.bind hf

theorem ahciRead_delivered (hw : Delivers w) (lba count : Nat) (log : ReadLog) :
    Program.exec (ahciRead w v lba count) log =
      (.ok (v.read lba count), { log with reads := log.reads + 1 }) := by
  unfold ahciRead
  rw [Program.exec_bind_ok (Program.exec_get log), hw]
  rfl

theorem readDirEntries_delivered (hw : Delivers w) (cluster : Nat) :
    Yields (readDirEntries w v cluster)
      ((dirEntries v cluster).mapError fun fault => .find (.directory fault)) := by
  intro log
  unfold readDirEntries dirEntries EszOs.readDirEntries
  by_cases hdata : IsDataCluster cluster
  · have hnot : ¬ (cluster < 2 ∨ eocStart ≤ cluster) := fun h => not_isDataCluster.mpr h hdata
    rw [if_neg (not_not_intro hdata), if_neg hnot, Program.exec_bind_ok (ahciRead_delivered hw _ _ log)]
    simp only [listing]
    cases getEntriesInDir v.context.clusterSizeInBytes (directoryEntries (v.read
        (clusterToLba v.context cluster) v.context.sectorsPerCluster))
        (clearedEntries v.context.clusterSizeInBytes) 0 with
    | error fault => rfl
    | ok l => rfl
  · rw [if_pos hdata, if_pos (not_isDataCluster.mp hdata)]
    rfl

theorem findEntryLoop_delivered (hw : Delivers w) (pathSections : List CString) (currCluster : Nat) :
    Yields (findEntryLoop w v pathSections currCluster)
      ((EszOs.findEntryLoop v pathSections currCluster).mapError fun fault =>
        .find (.directory fault)) := by
  induction pathSections generalizing currCluster with
  | nil => exact fun log => rfl
  | cons pathSection pathSections ih =>
    rw [findEntryLoop, EszOs.findEntryLoop]
    refine (readDirEntries_delivered hw currCluster).bind fun entries => ?_
    cases entries.find? fun e => e.isDirectory && strEqual e.name pathSection with
    | none => exact fun log => rfl
    | some e => exact ih e.firstCluster

theorem findLast_delivered (hw : Delivers w) (pathSection : CString) (currCluster : Nat) :
    Yields (findLast w v pathSection currCluster)
      ((EszOs.findLast v pathSection currCluster).mapError fun fault => .find (.directory fault)) := by
  rw [findLast, EszOs.findLast]
  refine (readDirEntries_delivered hw currCluster).map fun entries log => ?_
  cases entries.find? fun e => strEqual e.name pathSection with
  | none => rfl
  | some e => rfl

theorem findSections_delivered (hw : Delivers w) (pathSections : List CString) :
    Yields (findSections w v pathSections)
      ((EszOs.findSections v pathSections).mapError fun fault => .find (.directory fault)) := by
  rw [findSections, EszOs.findSections]
  refine (findEntryLoop_delivered hw _ _).bind fun found => ?_
  cases found with
  | none => exact fun log => rfl
  | some currCluster => exact findLast_delivered hw _ currCluster

/-- Without a failed read the entry is the one of `EszOs.findEntry`. -/
theorem findEntry_delivered (hw : Delivers w) (path : CString) :
    Yields (findEntry w v path) ((EszOs.findEntry v path).mapError .find) := by
  rw [findEntry, EszOs.findEntry]
  by_cases hroot : normalizedPath path = [] ∨ isRootPath (normalizedPath path) = true
  · rw [if_pos hroot, if_pos hroot]
    exact fun log => rfl
  rw [if_neg hroot, if_neg hroot]
  have hstores : (∃ s ∈ findEntryStores path, maxPathDepth ≤ s.1) ↔
      maxPathDepth < (strSplit (normalizedPath path) slash).length := by
    have hlt := @strSplitStores_lt_iff (normalizedPath path) slash maxPathDepth
    rw [findEntryStores, if_neg hroot, strSplit_length, ← not_iff_not]
    simp only [not_exists, not_and, Nat.not_le, Nat.not_lt]
    rw [hlt]
    exact Nat.lt_iff_add_one_le
  by_cases hdepth : maxPathDepth < (strSplit (normalizedPath path) slash).length
  · rw [if_pos hdepth, if_pos (hstores.mpr hdepth)]
    exact fun log => rfl
  · rw [if_neg hdepth, if_neg (mt hstores.mp hdepth)]
    intro log
    rw [findSections_delivered hw _ log]
    cases EszOs.findSections v (strSplit (normalizedPath path) slash) <;> rfl

theorem getNextCluster_delivered (hw : Delivers w) (cluster : Nat) (log : ReadLog) :
    Program.exec (getNextCluster w v cluster) log =
      (.ok (EszOs.getNextCluster v cluster), { log with reads := log.reads + 1 }) := by
  rw [getNextCluster, Program.exec_bind_ok (ahciRead_delivered hw _ _ log)]
  rfl

/-- The sectors of a cluster. -/
def clusterSectors (v : Volume) (cluster : Nat) : Mem :=
  v.read (clusterToLba v.context cluster) v.context.sectorsPerCluster

/-- Where the loop on the heap ends, the buffers are those of the chain that it has followed. -/
theorem chainLoop_delivered (hw : Delivers w) {outBuffer fuel : Nat} {s : ChainState} {h h' : Heap}
    (hloop : EszOs.chainLoop v outBuffer fuel s h = .ok h') :
    ∃ chain, IsClusterChain v s.currCluster chain ∧
      Yields (chainLoop w v fuel s.currCluster) (.ok (chain.map (clusterSectors v))) := by
  induction fuel generalizing s h with
  | zero =>
    rw [EszOs.chainLoop] at hloop
    split at hloop
    · cases hloop
    · rename_i hstop
      rw [ChainState.Reads] at hstop
      refine ⟨[], .stop hstop, fun log => ?_⟩
      rw [chainLoop, if_neg hstop]
      rfl
  | succ fuel ih =>
    rw [EszOs.chainLoop] at hloop
    split at hloop
    · rename_i hdata
      rw [ChainState.Reads] at hdata
      obtain ⟨h₁, -, hrest⟩ := bind_eq_ok.mp hloop
      obtain ⟨chain, hchain, hyields⟩ := ih hrest
      refine ⟨s.currCluster :: chain, .step hdata hchain, fun log => ?_⟩
      rw [chainLoop, if_pos hdata, Program.exec_bind_ok (ahciRead_delivered hw _ _ log),
        Program.exec_bind_ok (getNextCluster_delivered hw _ _), Program.exec_bind]
      have hrest := hyields ⟨log.reads + 1 + 1, log.failed⟩
      cases hexec : Program.exec (chainLoop w v fuel (s.next v).currCluster)
          ⟨log.reads + 1 + 1, log.failed⟩ with
      | mk r log' =>
        rw [hexec] at hrest
        cases hrest
        rw [ChainState.next] at hexec
        rw [hexec]
        rfl
    · rename_i hstop
      rw [ChainState.Reads] at hstop
      refine ⟨[], .stop hstop, fun log => ?_⟩
      rw [chainLoop, if_neg hstop]
      rfl

/-- Without a failed read the buffers are those of the chain that `EszOs.fat32Read` follows, for every
size of a cluster. -/
theorem fat32Read_delivered (hw : Delivers w) {fuel : Nat} {entry : Entry} {h : Heap} {r : Nat × Heap}
    (hread : EszOs.fat32Read v fuel h entry = .ok r) :
    ∃ chain, IsClusterChain v entry.firstCluster chain ∧ Yields (fat32Read w v fuel entry)
      (.ok (if chain = [] then none else some (chain.map (clusterSectors v)))) := by
  rw [EszOs.fat32Read, readClusterChain] at hread
  by_cases hdata : IsDataCluster entry.firstCluster
  · rw [if_neg (not_not_intro hdata)] at hread
    cases hallocate : allocate h (outBufferSize v entry.size) with
    | error fault =>
      rw [hallocate] at hread
      cases hread
    | ok r₁ =>
      cases hloop : EszOs.chainLoop v r₁.1 fuel (.first entry.firstCluster) r₁.2 with
      | error fault =>
        simp only [hallocate, Except.bind, hloop] at hread
        cases hread
      | ok h' =>
        obtain ⟨chain, hchain, hyields⟩ := chainLoop_delivered hw hloop
        have hne : chain ≠ [] := by
          rintro rfl
          cases hchain with
          | stop hstop => exact hstop hdata
        refine ⟨chain, hchain, fun log => ?_⟩
        have hbuffers := hyields log
        rw [fat32Read, if_neg (not_not_intro hdata), if_neg hne, Program.exec_bind]
        cases hexec : Program.exec (chainLoop w v fuel entry.firstCluster) log with
        | mk r log' =>
          rw [ChainState.first, hexec] at hbuffers
          cases hbuffers
          rfl
  · refine ⟨[], .stop hdata, fun log => ?_⟩
    rw [fat32Read, if_pos hdata]
    rfl

end

/-! ## What the buffers can show -/

/-- There are contents of a buffer whose entries are in `P`. -/
def Shows (v : Volume) (P : List Entry → Prop) : Prop :=
  ∃ tempBuffer entries, listing v tempBuffer = .ok entries ∧ P entries

/-- There are contents in which the section leads to a directory. -/
def LeadsOn (v : Volume) (pathSection : CString) : Prop :=
  Shows v fun entries => ∃ e, (entries.find? fun e =>
    e.isDirectory && strEqual e.name pathSection) = some e ∧ IsDataCluster e.firstCluster

/-- There are contents in which the section names an entry in `P`. -/
def Names (v : Volume) (pathSection : CString) (P : Entry → Prop) : Prop :=
  Shows v fun entries => ∃ e, (entries.find? fun e => strEqual e.name pathSection) = some e ∧ P e

/-- The buffers can make the path lead to an entry in `P`. -/
structure CanFind (v : Volume) (path : CString) (P : Entry → Prop) : Prop where
  notRoot : ¬ LeadsToRoot path
  depth : (strSplit (normalizedPath path) slash).length ≤ maxPathDepth
  root : IsDataCluster v.context.rootCluster
  directories : ∀ s ∈ (strSplit (normalizedPath path) slash).dropLast, LeadsOn v s
  last : Names v ((strSplit (normalizedPath path) slash).getLastD []) P

/-- The buffers can make the call succeed when a read fails. -/
def Call.Exposed (v : Volume) : Call → Prop
  | findEntry path => CanFind v path fun _ => True
  | getEntries path =>
    LeadsToRoot path ∧ IsDataCluster v.context.rootCluster ∧ Shows v (· ≠ []) ∨
      CanFind v path fun e => e.isDirectory = true ∧ IsDataCluster e.firstCluster
  | fat32Read entry => IsDataCluster entry.firstCluster

section

variable {w : Surroundings} {v : Volume} {log log' : ReadLog}

open Program (exec exec_bind_eq_ok)

/-- Entries come from a buffer. -/
theorem readDirEntries_ok {cluster : Nat} {entries : List Entry}
    (h : exec (readDirEntries w v cluster) log = (.ok entries, log')) (hne : entries ≠ []) :
    IsDataCluster cluster ∧ ∃ tempBuffer, listing v tempBuffer = .ok entries := by
  unfold readDirEntries at h
  split at h
  · cases h
    exact absurd rfl hne
  · rename_i hdata
    obtain ⟨tempBuffer, log₁, -, hlist⟩ := exec_bind_eq_ok.mp h
    refine ⟨not_not.mp hdata, tempBuffer, ?_⟩
    cases hl : listing v tempBuffer with
    | error fault =>
      rw [hl] at hlist
      cases hlist
    | ok es =>
      rw [hl] at hlist
      cases hlist
      rfl

theorem ne_nil_of_find?_eq_some {α : Type} {p : α → Bool} {as : List α} {a : α}
    (h : as.find? p = some a) : as ≠ [] := by
  rintro rfl
  cases h

theorem findEntryLoop_ok {pathSections : List CString} {currCluster cluster : Nat}
    (h : exec (findEntryLoop w v pathSections currCluster) log = (.ok (some cluster), log'))
    (hdata : IsDataCluster cluster) :
    IsDataCluster currCluster ∧ ∀ s ∈ pathSections, LeadsOn v s := by
  induction pathSections generalizing currCluster log with
  | nil =>
    cases h
    exact ⟨hdata, List.forall_mem_nil _⟩
  | cons pathSection pathSections ih =>
    obtain ⟨entries, log₁, hread, hrest⟩ := exec_bind_eq_ok.mp h
    cases hfind : entries.find? fun e => e.isDirectory && strEqual e.name pathSection with
    | none =>
      rw [hfind] at hrest
      cases hrest
    | some e =>
      rw [hfind] at hrest
      obtain ⟨hnext, hsections⟩ := ih hrest
      obtain ⟨hcurr, tempBuffer, hlist⟩ := readDirEntries_ok hread (ne_nil_of_find?_eq_some hfind)
      have hleads : LeadsOn v pathSection := ⟨tempBuffer, entries, hlist, e, hfind, hnext⟩
      exact ⟨hcurr, List.forall_mem_cons.mpr ⟨hleads, hsections⟩⟩

theorem findLast_ok {pathSection : CString} {currCluster : Nat} {e : Entry}
    (h : exec (findLast w v pathSection currCluster) log = (.ok e, log')) (hne : e ≠ .empty) :
    IsDataCluster currCluster ∧
      Names v pathSection fun e' => e = { e' with found := true } := by
  obtain ⟨entries, log₁, hread, hrest⟩ := exec_bind_eq_ok.mp h
  cases hfind : entries.find? fun e => strEqual e.name pathSection with
  | none =>
    rw [hfind] at hrest
    cases hrest
    exact absurd rfl hne
  | some e' =>
    rw [hfind] at hrest
    obtain ⟨hcurr, tempBuffer, hlist⟩ := readDirEntries_ok hread (ne_nil_of_find?_eq_some hfind)
    cases hrest
    exact ⟨hcurr, tempBuffer, entries, hlist, e', hfind, rfl⟩

/-- What is found is the root, without a read, or comes from the buffers. -/
theorem findEntry_ok {path : CString} {e : Entry}
    (h : exec (findEntry w v path) log = (.ok e, log')) (hne : e ≠ .empty) :
    LeadsToRoot path ∧ e = rootEntry v ∧ log' = log ∨
      CanFind v path fun e' => e = { e' with found := true } := by
  rw [findEntry] at h
  split at h
  · rename_i hroot
    cases h
    exact .inl ⟨hroot, rfl, rfl⟩
  rename_i hroot
  split at h
  · cases h
  rename_i hdepth
  obtain ⟨found, log₁, hloop, hlast⟩ := exec_bind_eq_ok.mp h
  cases found with
  | none =>
    cases hlast
    exact absurd rfl hne
  | some currCluster =>
    obtain ⟨hcurr, hnames⟩ := findLast_ok hlast hne
    obtain ⟨hstart, hsections⟩ := findEntryLoop_ok hloop hcurr
    exact .inr ⟨hroot, Nat.not_lt.mp hdepth, hstart, hsections, hnames⟩

theorem CanFind.imp {path : CString} {P Q : Entry → Prop} (h : CanFind v path P)
    (hPQ : ∀ e, P e → Q e) : CanFind v path Q := by
  obtain ⟨tempBuffer, entries, hlist, e, hfind, he⟩ := h.last
  exact ⟨h.notRoot, h.depth, h.root, h.directories, tempBuffer, entries, hlist, e, hfind, hPQ e he⟩

/-- A call that succeeds is exposed, or reads nothing that fails. -/
theorem Call.exposed_of_returns {call : Call} {fuel : Nat} {answer : Answer}
    (h : call.Returns w v fuel answer log) (hne : answer ≠ call.failure) :
    call.Exposed v ∨ log.failed = false := by
  cases call with
  | findEntry path =>
    obtain ⟨e, log₁, hfind, hanswer⟩ := exec_bind_eq_ok.mp h
    cases hanswer
    have hempty : e ≠ .empty := fun he => hne (congrArg Answer.entry he)
    rcases findEntry_ok hfind hempty with ⟨-, -, hlog⟩ | hcan
    · exact .inr (congrArg ReadLog.failed hlog)
    · exact .inl (hcan.imp fun _ _ => trivial)
  | getEntries path =>
    obtain ⟨entries, log₁, hget, hanswer⟩ := exec_bind_eq_ok.mp h
    cases hanswer
    have hentries : entries ≠ [] := fun he => hne (congrArg Answer.entries he)
    obtain ⟨dir, log₂, hfind, hread⟩ := exec_bind_eq_ok.mp hget
    split at hread
    · cases hread
      exact absurd rfl hentries
    rename_i hdir
    rw [not_or, not_not, not_not] at hdir
    obtain ⟨hdata, tempBuffer, hlist⟩ := readDirEntries_ok hread hentries
    have hempty : dir ≠ .empty := by
      rintro rfl
      exact Bool.false_ne_true hdir.1
    rcases findEntry_ok hfind hempty with ⟨hroot, hdirRoot, -⟩ | hcan
    · rw [hdirRoot] at hdata
      exact .inl (.inl ⟨hroot, hdata, tempBuffer, entries, hlist, hentries⟩)
    · refine .inl (.inr (hcan.imp fun e he => ?_))
      subst he
      exact ⟨hdir.2, hdata⟩
  | fat32Read entry =>
    obtain ⟨fileData, log₁, hread, hanswer⟩ := exec_bind_eq_ok.mp h
    cases hanswer
    rw [FaultyReads.fat32Read] at hread
    split at hread
    · cases hread
      exact absurd rfl hne
    rename_i hdata
    exact .inl (not_not.mp hdata)

end

/-! ## Runs without a read -/

/-- No read is started; the buffers hold these bytes. -/
def stale (buffers : List Mem) : Surroundings where
  outcome _ := .notStarted
  previous i := buffers.getD i fun _ => 0

section

variable {v : Volume} {pre post : List Mem} {failed : Bool}

open Program (exec exec_bind_ok)

theorem ahciRead_stale (buffers : List Mem) (lba count : Nat) (log : ReadLog) :
    exec (ahciRead (stale buffers) v lba count) log =
      (.ok (buffers.getD log.reads fun _ => 0), ⟨log.reads + 1, true⟩) := rfl

theorem readDirEntries_stale {cluster : Nat} {buffer : Mem} {entries : List Entry}
    (hdata : IsDataCluster cluster) (hlist : listing v buffer = .ok entries) :
    exec (readDirEntries (stale (pre ++ buffer :: post)) v cluster) ⟨pre.length, failed⟩ =
      (.ok entries, ⟨(pre ++ [buffer]).length, true⟩) := by
  have hbuffer : (pre ++ buffer :: post).getD pre.length (fun _ => 0) = buffer := by simp
  rw [readDirEntries, if_neg (not_not_intro hdata), exec_bind_ok (ahciRead_stale _ _ _ _), hbuffer,
    hlist, List.length_append]
  rfl

/-- The sections lead on through buffers that show them. -/
theorem findEntryLoop_stale {pathSections : List CString} {currCluster : Nat}
    (hdata : IsDataCluster currCluster) (hsections : ∀ s ∈ pathSections, LeadsOn v s) :
    ∃ buffers cluster, IsDataCluster cluster ∧ ∀ pre post failed, ∃ failed',
      exec (findEntryLoop (stale (pre ++ (buffers ++ post))) v pathSections currCluster)
        ⟨pre.length, failed⟩ = (.ok (some cluster), ⟨(pre ++ buffers).length, failed'⟩) := by
  induction pathSections generalizing currCluster with
  | nil => exact ⟨[], currCluster, hdata, fun pre post failed => ⟨failed, by simp; rfl⟩⟩
  | cons pathSection pathSections ih =>
    obtain ⟨⟨buffer, entries, hlist, e, hfind, hnext⟩, hrest⟩ := List.forall_mem_cons.mp hsections
    obtain ⟨buffers, cluster, hcluster, hloop⟩ := ih hnext hrest
    refine ⟨buffer :: buffers, cluster, hcluster, fun pre post failed => ?_⟩
    obtain ⟨failed', hexec⟩ := hloop (pre ++ [buffer]) post true
    refine ⟨failed', ?_⟩
    have hread : exec (readDirEntries (stale (pre ++ buffer :: (buffers ++ post))) v currCluster)
        ⟨pre.length, failed⟩ = (.ok entries, ⟨(pre ++ [buffer]).length, true⟩) :=
      readDirEntries_stale hdata hlist
    rw [findEntryLoop, List.cons_append, exec_bind_ok hread, hfind, List.append_cons pre buffer buffers,
      List.append_cons pre buffer (buffers ++ post)]
    exact hexec

theorem findEntry_sections {w : Surroundings} {path : CString} (hroot : ¬ LeadsToRoot path)
    (hdepth : (strSplit (normalizedPath path) slash).length ≤ maxPathDepth) :
    findEntry w v path = findSections w v (strSplit (normalizedPath path) slash) :=
  (if_neg hroot).trans (if_neg (Nat.not_lt.mpr hdepth))

/-- The path leads to an entry through buffers that show it. -/
theorem findEntry_stale {path : CString} {P : Entry → Prop} (h : CanFind v path P) :
    ∃ buffers e, P e ∧ ∀ post, exec (findEntry (stale (buffers ++ post)) v path) ⟨0, false⟩ =
      (.ok { e with found := true }, ⟨buffers.length, true⟩) := by
  obtain ⟨buffers, cluster, hcluster, hloop⟩ := findEntryLoop_stale h.root h.directories
  obtain ⟨buffer, entries, hlist, e, hfind, he⟩ := h.last
  refine ⟨buffers ++ [buffer], e, he, fun post => ?_⟩
  obtain ⟨failed, hexec⟩ := hloop [] (buffer :: post) false
  rw [List.nil_append, List.nil_append, List.length_nil] at hexec
  rw [findEntry_sections h.notRoot h.depth, ← List.append_cons, findSections, exec_bind_ok hexec]
  show exec (findLast _ _ _ _) _ = _
  rw [findLast, exec_bind_ok (readDirEntries_stale hcluster hlist), hfind]
  rfl

/-- The directory is read from a buffer that shows entries. -/
theorem getEntries_stale {path : CString} {buffer : Mem} {dir : Entry} {entries : List Entry}
    (hfind : exec (findEntry (stale (pre ++ buffer :: post)) v path) ⟨0, false⟩ =
      (.ok dir, ⟨pre.length, failed⟩)) (hfound : dir.found = true) (hdir : dir.isDirectory = true)
    (hdata : IsDataCluster dir.firstCluster) (hlist : listing v buffer = .ok entries) :
    exec (getEntries (stale (pre ++ buffer :: post)) v path) ⟨0, false⟩ =
      (.ok entries, ⟨(pre ++ [buffer]).length, true⟩) := by
  rw [getEntries, exec_bind_ok hfind, if_neg (by simp [hfound, hdir]),
    readDirEntries_stale hdata hlist]

/-- The file is one cluster of zeros, and so is the sector of the FAT. -/
theorem fat32Read_stale {entry : Entry} (hdata : IsDataCluster entry.firstCluster) :
    exec (fat32Read (stale []) v 1 entry) ⟨0, false⟩ =
      (.ok (some [fun _ => 0]), ⟨2, true⟩) := by
  have hnext : ∀ log, exec (getNextCluster (stale []) v entry.firstCluster) log =
      (.ok 0, ⟨log.reads + 1, true⟩) := by
    intro log
    have hzero : ∀ a, readLE (fun _ => 0) a 4 = 0 := by simp [readLE]
    rw [getNextCluster, exec_bind_ok (ahciRead_stale [] _ _ _), List.getD_nil, hzero]
    rfl
  rw [fat32Read, if_neg (not_not_intro hdata), chainLoop, if_pos hdata]
  simp only [bind_assoc]
  rw [exec_bind_ok (ahciRead_stale [] _ _ _), exec_bind_ok (hnext _)]
  rfl

/-- A call that is exposed succeeds without a read. -/
theorem Call.not_reportsFaults {call : Call} (h : call.Exposed v) : ¬ call.ReportsFaults v := by
  intro hreports
  cases call with
  | findEntry path =>
    obtain ⟨buffers, e, -, hexec⟩ := findEntry_stale h
    have hreturns : (Call.findEntry path).Returns (stale (buffers ++ [])) v 0
        (.entry { e with found := true }) ⟨buffers.length, true⟩ := by
      rw [Call.Returns, Call.run, exec_bind_ok (hexec [])]
      rfl
    have hanswer := Answer.entry.inj (hreports.failure hreturns rfl)
    exact Bool.noConfusion (congrArg Entry.found hanswer)
  | getEntries path =>
    have hcontra : ∀ {pre : List Mem} {buffer : Mem} {dir : Entry} {entries : List Entry}
        {failed : Bool}, exec (FaultyReads.findEntry (stale (pre ++ [buffer])) v path) ⟨0, false⟩ =
          (.ok dir, ⟨pre.length, failed⟩) → dir.found = true → dir.isDirectory = true →
        IsDataCluster dir.firstCluster → listing v buffer = .ok entries → entries = [] := by
      intro pre buffer dir entries failed hfind hfound hdir hdata hlist
      have hreturns : (Call.getEntries path).Returns (stale (pre ++ [buffer])) v 0
          (.entries entries) ⟨(pre ++ [buffer]).length, true⟩ := by
        rw [Call.Returns, Call.run,
          exec_bind_ok (getEntries_stale hfind hfound hdir hdata hlist)]
        rfl
      exact Answer.entries.inj (hreports.failure hreturns rfl)
    rcases h with ⟨hroot, hdata, buffer, entries, hlist, hne⟩ | hcan
    · have hfind : exec (FaultyReads.findEntry (stale ([] ++ [buffer])) v path) ⟨0, false⟩ =
          (.ok (rootEntry v), ⟨([] : List Mem).length, false⟩) := by
        rw [FaultyReads.findEntry]
        exact congrArg (fun m => exec m _) (if_pos hroot)
      exact hne (hcontra hfind rfl rfl hdata hlist)
    · obtain ⟨buffer, entries, hlist, e, hname, -⟩ := hcan.last
      obtain ⟨buffers, e, ⟨hdir, hdata⟩, hexec⟩ := findEntry_stale hcan
      exact ne_nil_of_find?_eq_some hname (hcontra (hexec [buffer]) rfl hdir hdata hlist)
  | fat32Read entry =>
    have hreturns : (Call.fat32Read entry).Returns (stale []) v 1 (.data (some [fun _ => 0]))
        ⟨2, true⟩ := by
      rw [Call.Returns, Call.run, exec_bind_ok (fat32Read_stale h)]
      rfl
    cases Answer.data.inj (hreports.failure hreturns rfl)

end

/-- A volume of zeros: its directories are empty. -/
def zeroVolume : Volume := ⟨smallContext, fun _ _ _ => 0, smallContext_pos⟩

end FaultyReads

end EszOs
