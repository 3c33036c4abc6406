import EszOs.Storage.ClusterChain
import EszOs.Storage.LookupBlocks

/-!
# The blocks of the path commands (`storage/filesystem/filesystem.cpp`, `shell/commands/commands.cpp`)

`cd`, `ls` and `read` with their allocations.

* `PathCommand.program_owns`: what a command leaves allocated.
* `pathCommands_balanced_iff`: over every run the allocated blocks stay the same exactly if no `cd` has
  a relative path and no `ls` lists a directory without entries.
-/

namespace EszOs

open BlockHeap

/-- The commands that take a path. -/
inductive PathCommand
  | cd (path : CString)
  | ls
  | read (args : CString)

section Source

variable (A : Allocator Nat)

/-! ## `filesystem.cpp` -/

/-- `str_cut_end_malloc` -/
def strCutEnd (text : CString) (n : Nat) : CString := text.take (text.length - n)

/-- `filesystem_change_directory`: the new `currentPath`; `none` if a section is stored behind
`pathSections`. -/
def changeDirectoryBlocks (currentPath path : CString) : Option (StringProgram CString) :=
  if path = [] then some (return [slash])
  else if isAbsolutePath path then some (return path)
  else if maxPathDepth < (strSplit path slash).length then none
  else some do
    let pathSections ← strSplitBlocks A (strSplit path slash)
    match strSplit path slash with
    | [text] =>
      let name ← construct A [.chars (.block (pathSections.headD 0)), .chars (.text [slash])]
      let _ ← takeText name
      return strAdd currentPath (text ++ [slash])
    | _ => return currentPath

/-- `filesystem_list` -/
def listBlocks (v : Volume) (stray : Nat → List Entry) (currentPath : CString) :
    Option (StringProgram Unit) :=
  (getEntriesBlocks A v stray (strCutEnd currentPath 1)).map fun getEntries => do
    let trimmedPath ← derivedStr A (strCutEnd · 1) (.text currentPath)
    let listed ← getEntries
    BlockHeap.free trimmedPath
    if listed.2 = 0 then return ()
    else listed.1.elim (return ()) BlockHeap.free

/-! ## `read` -/

/-- The clusters that the loop of `read_cluster_chain` passes; `none` if it is still running. -/
def chainClusters (v : Volume) : Nat → Nat → Option (List Nat)
  | 0, cluster => if IsDataCluster cluster then none else some []
  | fuel + 1, cluster =>
    if IsDataCluster cluster then
      (chainClusters v fuel (getNextCluster v cluster)).map (cluster :: ·)
    else some []

/-- The loop of `read_cluster_chain`. -/
def copyClusterBlocks (v : Volume) (outBuffer : Nat) : List Nat → StringProgram Unit
  | [] => return ()
  | _ :: clusters => do
    let tempBuffer ← BlockHeap.malloc A v.context.clusterSizeInBytes []
    BlockHeap.store outBuffer []
    BlockHeap.free tempBuffer
    copyClusterBlocks v outBuffer clusters

/-- `fat32_read`: the block of `fileData`; `none` if it does not return, or leaves its memory: it stores
through the null pointer or behind `outBuffer`. -/
def fat32ReadBlocks (v : Volume) (fuel : Nat) (entry : Entry) : Option (StringProgram Nat) :=
  if ¬ IsDataCluster entry.firstCluster then none
  else (chainClusters v fuel entry.firstCluster).bind fun clusters =>
    if outBufferSize v entry.size < clusters.length * v.context.clusterSizeInBytes then none
    else some do
      let outBuffer ← BlockHeap.malloc A (outBufferSize v entry.size) []
      copyClusterBlocks A v outBuffer clusters
      BlockHeap.store outBuffer []
      return outBuffer

/-- The end of `cmd_read` for a path that is no file. -/
def notFoundBlocks (filePath : Nat) : StringProgram Unit := do
  let message ← construct A [.chars (.text (literal "File: '")), .chars (.block filePath),
    .chars (.text (literal "' was not found"))]
  BlockHeap.free message
  BlockHeap.free filePath

/-- The end of `cmd_read` for a file that `read` reads. -/
def printFileBlocks (filePath : Nat) (read : StringProgram Nat) : StringProgram Unit := do
  BlockHeap.free filePath
  let data ← read
  let _ ← takeText data

/-- The end of `cmd_read` for the entry that `find_entry` returns. -/
def readEntryBlocks (v : Volume) (fuel : Nat) (e : Entry) : Option (Nat → StringProgram Unit) :=
  if ¬ e.found ∨ e.isDirectory then some (notFoundBlocks A)
  else (fat32ReadBlocks A v fuel e).map fun read filePath => printFileBlocks filePath read

/-- `cmd_read` -/
def cmdReadBlocks (v : Volume) (stray : Nat → List Entry) (fuel : Nat) (currentPath args : CString) :
    Option (StringProgram Unit) :=
  (findEntryBlocks A v stray (currentPath ++ args)).bind fun findEntry =>
    (readEntryBlocks A v fuel (foundEntry v stray (currentPath ++ args))).map fun finish => do
      let filePath ← strCombine A (.text currentPath) (.text args)
      let _ ← findEntry
      finish filePath

/-! ## Commands -/

/-- What a command does: `currentPath` then. -/
def PathCommand.program (v : Volume) (stray : Nat → List Entry) (fuel : Nat) (currentPath : CString) :
    PathCommand → Option (StringProgram CString)
  | cd path => changeDirectoryBlocks A currentPath path
  | ls => (listBlocks A v stray currentPath).map fun list => do
    list
    return currentPath
  | read args => (cmdReadBlocks A v stray fuel currentPath args).map fun read => do
    read
    return currentPath

end Source

/-- The state between two commands, and the fault that ended the run. -/
structure PathRun where
  heap : BlockHeap Nat CString
  currentPath : CString
  fault : Option HeapFault

/-- The next command; there is no state after one that does not return. -/
def PathRun.step (A : Allocator Nat) (v : Volume) (stray : Nat → List Entry) (fuel : Nat) (s : PathRun)
    (command : PathCommand) : Option PathRun :=
  if s.fault.isSome then none
  else (command.program A v stray fuel s.currentPath).map fun m =>
    match m.exec s.heap with
    | (.ok currentPath, heap) => ⟨heap, currentPath, none⟩
    | (.error e, heap) => ⟨heap, s.currentPath, some e⟩

/-- A command that frees what it allocates: `cd` with no or an absolute path, `ls` unless the directory
is there and has no entries, `read` always. -/
def PathCommand.Frees (v : Volume) (stray : Nat → List Entry) (currentPath : CString) :
    PathCommand → Prop
  | cd path => path = [] ∨ isAbsolutePath path = true
  | ls =>
    let dir := foundEntry v stray (strCutEnd currentPath 1)
    dir.found = true → dir.isDirectory = true → entriesRead v stray dir.firstCluster ≠ []
  | read _ => True

section

variable (A : Allocator Nat) {P : Multiset Nat} {v : Volume} {stray : Nat → List Entry} {fuel : Nat}

/-! ## One command -/

/-- `cd` with a relative path leaves its sections. -/
theorem changeDirectoryBlocks_owns {currentPath path : CString} {m : StringProgram CString}
    (h : changeDirectoryBlocks A currentPath path = some m) :
    Owns P m fun _ M => ∃ leaked : Multiset Nat, M = leaked + P ∧
      (leaked = 0 ↔ path = [] ∨ isAbsolutePath path = true) := by
  have hnone : ∀ {p : CString}, path = [] ∨ isAbsolutePath path = true →
      Owns P (pure p : StringProgram CString) fun _ M => ∃ leaked : Multiset Nat, M = leaked + P ∧
        (leaked = 0 ↔ path = [] ∨ isAbsolutePath path = true) := fun hfrees =>
    Owns.pure ⟨0, (Multiset.zero_add P).symm, iff_of_true rfl hfrees⟩
  rw [changeDirectoryBlocks] at h
  split at h
  · rename_i hnil
    cases h
    exact hnone (.inl hnil)
  split at h
  · rename_i habs
    cases h
    exact hnone (.inr habs)
  split at h
  · cases h
  rename_i hnil habs _
  cases h
  refine (strSplitBlocks_owns A _).bind fun pathSections M ⟨hM, hlength⟩ => ?_
  subst hM
  have hne : pathSections ≠ [] := by
    rintro rfl
    exact strSplit_ne_nil path slash (List.length_eq_zero_iff.mp hlength.symm)
  have hleaked : (pathSections : Multiset Nat) = 0 ↔ path = [] ∨ isAbsolutePath path = true :=
    iff_of_false (fun h0 => hne (Multiset.coe_eq_zero _ |>.mp h0)) fun h => h.elim hnil habs
  split
  · have hhead : pathSections.headD 0 ∈ pathSections := by
      cases pathSections with
      | nil => exact absurd rfl hne
      | cons p ps => exact List.mem_cons_self
    have htexts : ∀ s ∈ [CharPtr.block (pathSections.headD 0), .text [slash]],
        s.Readable (↑pathSections + P) := by
      intro s hs
      rcases List.mem_cons.mp hs with rfl | hs
      · exact Multiset.mem_add.mpr (.inl hhead)
      · rw [List.mem_singleton.mp hs]
        trivial
    refine (construct_chars_owns A htexts).bindEq fun name => ?_
    refine (takeText_owns name).bindEq fun _ => ?_
    exact Owns.pure ⟨_, rfl, hleaked⟩
  · exact Owns.pure ⟨_, rfl, hleaked⟩

/-- `ls` leaves the array of a directory without entries. -/
theorem listBlocks_owns {currentPath : CString} {m : StringProgram Unit}
    (h : listBlocks A v stray currentPath = some m) :
    Owns P m fun _ M => ∃ leaked : Multiset Nat, M = leaked + P ∧
      (leaked = 0 ↔ PathCommand.ls.Frees v stray currentPath) := by
  obtain ⟨getEntries, hget, rfl⟩ := Option.map_eq_some_iff.mp h
  have htext : CharPtr.Readable P (.text currentPath) := trivial
  refine (derivedStr_owns A (strCutEnd · 1) htext).bindEq fun trimmedPath => ?_
  refine (getEntriesBlocks_owns A hget).bind fun listed M ⟨hM, hsome, hcount⟩ => ?_
  rw [hM, Multiset.add_cons]
  refine Owns.free.bindEq fun _ => ?_
  obtain ⟨outEntries, count⟩ := listed
  cases outEntries with
  | none =>
    have hcount : count = 0 := hcount
    have hnot := mt hsome.mpr Bool.false_ne_true
    rw [if_pos hcount]
    exact Owns.pure ⟨0, rfl, iff_of_true rfl fun hfound hdir => absurd ⟨hfound, hdir⟩ hnot⟩
  | some p =>
    obtain ⟨hfound, hdir⟩ := hsome.mp rfl
    have hcount : count = _ := hcount
    by_cases h0 : count = 0
    · rw [if_pos h0]
      have hne : (↑(some p).toList : Multiset Nat) ≠ 0 := Multiset.singleton_ne_zero p
      refine Owns.pure ⟨_, rfl, iff_of_false hne fun hfrees => ?_⟩
      exact hfrees hfound hdir (List.length_eq_zero_iff.mp (hcount.symm.trans h0))
    · rw [if_neg h0]
      have hP : (↑(some p).toList : Multiset Nat) + P = p ::ₘ P := Multiset.singleton_add p P
      rw [hP]
      refine Owns.free.imp fun _ M hM => ⟨0, by rw [hM, Multiset.zero_add], iff_of_true rfl ?_⟩
      intro _ _ hnil
      rw [hcount, hnil] at h0
      exact h0 rfl

theorem copyClusterBlocks_owns {outBuffer : Nat} (hout : outBuffer ∈ P) (clusters : List Nat) :
    Owns P (copyClusterBlocks A v outBuffer clusters) fun _ M => M = P := by
  induction clusters with
  | nil => exact Owns.pure rfl
  | cons cluster clusters ih =>
    refine (Owns.malloc A _ _).bindEq fun tempBuffer => ?_
    refine (Owns.store (Multiset.mem_cons_of_mem hout) _).bindEq fun _ => ?_
    refine Owns.free.bindEq fun _ => ?_
    exact ih

theorem fat32ReadBlocks_owns {entry : Entry} {m : StringProgram Nat}
    (h : fat32ReadBlocks A v fuel entry = some m) : Owns P m fun p M => M = p ::ₘ P := by
  rw [fat32ReadBlocks] at h
  split at h
  · cases h
  obtain ⟨clusters, -, h⟩ := Option.bind_eq_some_iff.mp h
  split at h
  · cases h
  cases h
  refine (Owns.malloc A _ _).bindEq fun outBuffer => ?_
  have hout : outBuffer ∈ outBuffer ::ₘ P := Multiset.mem_cons_self outBuffer P
  refine (copyClusterBlocks_owns A hout clusters).bindEq fun _ => ?_
  refine (Owns.store hout _).bindEq fun _ => ?_
  exact Owns.pure rfl

/-- The path and the data or the message are freed. -/
theorem readEntryBlocks_owns {e : Entry} {finish : Nat → StringProgram Unit}
    (h : readEntryBlocks A v fuel e = some finish) (filePath : Nat) :
    Owns (filePath ::ₘ P) (finish filePath) fun _ M => M = P := by
  rw [readEntryBlocks] at h
  split at h
  · cases h
    have htexts : ∀ s ∈ [CharPtr.text (literal "File: '"), .block filePath,
        .text (literal "' was not found")], s.Readable (filePath ::ₘ P) := by
      simp [CharPtr.Readable]
    refine (construct_chars_owns A htexts).bindEq fun message => ?_
    refine Owns.free.bindEq fun _ => ?_
    exact Owns.free
  · obtain ⟨read, hread, rfl⟩ := Option.map_eq_some_iff.mp h
    refine Owns.free.bindEq fun _ => ?_
    refine (fat32ReadBlocks_owns A hread).bindEq fun data => ?_
    refine (takeText_owns data).bindEq fun _ => ?_
    exact Owns.pure rfl

/-- `read` frees what it allocates. -/
theorem cmdReadBlocks_owns {currentPath args : CString} {m : StringProgram Unit}
    (h : cmdReadBlocks A v stray fuel currentPath args = some m) : Owns P m fun _ M => M = P := by
  obtain ⟨findEntry, hfind, h⟩ := Option.bind_eq_some_iff.mp h
  obtain ⟨finish, hfinish, rfl⟩ := Option.map_eq_some_iff.mp h
  have hpath : CharPtr.Readable P (.text currentPath) := trivial
  have hargs : CharPtr.Readable P (.text args) := trivial
  refine (strCombine_owns A hpath hargs).bindEq fun filePath => ?_
  refine (findEntryBlocks_owns A hfind).bind fun e M ⟨hM, _⟩ => ?_
  rw [hM]
  exact readEntryBlocks_owns A hfinish filePath

/-- A command faults nowhere, and leaves blocks behind exactly if it does not free them. -/
theorem PathCommand.program_owns {currentPath : CString} {command : PathCommand}
    {m : StringProgram CString} (h : command.program A v stray fuel currentPath = some m) :
    Owns P m fun _ M => ∃ leaked : Multiset Nat, M = leaked + P ∧
      (leaked = 0 ↔ command.Frees v stray currentPath) := by
  cases command with
  | cd path => exact changeDirectoryBlocks_owns A h
  | ls =>
    obtain ⟨list, hlist, rfl⟩ := Option.map_eq_some_iff.mp h
    refine (listBlocks_owns A hlist).bind fun _ M hM => ?_
    exact Owns.pure hM
  | read args =>
    obtain ⟨read, hread, rfl⟩ := Option.map_eq_some_iff.mp h
    refine (cmdReadBlocks_owns A hread).bindEq fun _ => ?_
    exact Owns.pure ⟨0, (Multiset.zero_add P).symm, iff_of_true rfl trivial⟩

/-! ## Runs -/

/-- No fault, and the blocks of `live` are allocated. -/
structure PathRun.Balanced (live : Multiset Nat) (s : PathRun) : Prop where
  fault : s.fault = none
  live_eq : s.heap.live = live

/-- A command keeps the balance exactly if it frees what it allocates. -/
theorem PathRun.balanced_step_iff {live : Multiset Nat} {s s' : PathRun} {command : PathCommand}
    (hs : s.Balanced live) (h : s.step A v stray fuel command = some s') :
    s'.Balanced live ↔ command.Frees v stray s.currentPath := by
  unfold step at h
  rw [hs.fault, Option.isSome_none, if_neg Bool.false_ne_true] at h
  obtain ⟨m, hm, rfl⟩ := Option.map_eq_some_iff.mp h
  obtain ⟨currentPath, heap', M, hexec, ⟨leaked, hM, hleaked⟩, hlive⟩ :=
    PathCommand.program_owns A hm s.heap live (by rw [hs.live_eq, Multiset.zero_add])
  rw [hexec, ← hleaked]
  rw [hM, Multiset.add_zero] at hlive
  constructor
  · intro hbalanced
    have hcard := congrArg Multiset.card (hlive.symm.trans hbalanced.live_eq)
    rw [Multiset.card_add, Nat.add_eq_right] at hcard
    exact Multiset.card_eq_zero.mp hcard
  · rintro rfl
    exact ⟨rfl, hlive.trans (Multiset.zero_add _)⟩

/-- In every state of a run the allocated blocks are those from the start, exactly if each command
that was executed frees what it allocates. -/
theorem pathCommands_balanced_iff (v : Volume) (stray : Nat → List Entry) (fuel : Nat) (s : PathRun)
    (hs : s.fault = none) (commands : List PathCommand) :
    (∀ s' ∈ Runs.states (PathRun.step A v stray fuel) s commands, s'.Balanced s.heap.live) ↔
      ∀ c ∈ Runs.calls (PathRun.step A v stray fuel) s commands, c.2.Frees v stray c.1.currentPath :=
  Runs.forall_states_iff (fun _ _ _ _ hs h => PathRun.balanced_step_iff A hs h) ⟨hs, rfl⟩

end

/-- The shell after boot. -/
def PathRun.start : PathRun := ⟨BlockHeap.empty [], rootPath, none⟩

/-- Lists the root directory, reads its file and looks for another one, goes to an absolute path and
back. -/
def pathCommands : List PathCommand :=
  [.ls, .read (literal "foo.txt"), .read (literal "bar"), .cd (literal "/a"), .cd []]

theorem pathCommands_balanced :
    (Runs.states (PathRun.step behindAll byteVolume (fun _ => []) 1) PathRun.start
      pathCommands).length = 6 ∧
    (Runs.states (PathRun.step behindAll byteVolume (fun _ => []) 1) PathRun.start
      pathCommands).Forall (PathRun.Balanced 0) := by
  have hlist : PathCommand.ls.Frees byteVolume (fun _ => []) PathRun.start.currentPath :=
    fun _ _ => by decide +kernel
  refine ⟨by decide +kernel, List.forall_iff_forall_mem.mpr
    ((pathCommands_balanced_iff behindAll byteVolume (fun _ => []) 1 PathRun.start rfl _).mpr ?_)⟩
  intro c hc
  cases hstep : PathRun.step behindAll byteVolume (fun _ => []) 1 PathRun.start .ls with
  | none =>
    rw [pathCommands, Runs.calls_stop hstep] at hc
    cases hc
  | some s =>
    rw [pathCommands, Runs.calls_cons hstep] at hc
    rcases List.mem_cons.mp hc with rfl | hc
    · exact hlist
    · have hcommand := Runs.mem_of_mem_calls hc
      simp only [List.mem_cons, List.not_mem_nil, or_false] at hcommand
      rcases hcommand with h | h | h | h <;> rw [h]
      · trivial
      · trivial
      · exact .inr (by decide)
      · exact .inl rfl

/-- `cd a` leaves the section. -/
theorem pathCommands_cd_relative :
    ¬ ∀ s ∈ Runs.states (PathRun.step behindAll fooVolume (fun _ => []) 0) PathRun.start
      [.cd (literal "a")], s.Balanced 0 := by
  intro h
  obtain ⟨s', hs'⟩ : ∃ s', PathRun.start.step behindAll fooVolume (fun _ => []) 0
      (.cd (literal "a")) = some s' := ⟨_, rfl⟩
  rw [Runs.states_cons hs'] at h
  have hbalanced := h s' (List.mem_cons_of_mem _ (Runs.mem_states s' []))
  have hstart : PathRun.start.Balanced 0 := ⟨rfl, rfl⟩
  rcases (PathRun.balanced_step_iff behindAll hstart hs').mp hbalanced with hnil | habs
  · cases hnil
  · exact absurd habs (by decide)

end EszOs
