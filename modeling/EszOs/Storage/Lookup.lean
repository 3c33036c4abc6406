import EszOs.Lib.PathLookup
import EszOs.Storage.DirectoryContents
import EszOs.Storage.Fat32

/-!
# Lookups of paths

`find_entry` is a lookup along the sections of the path, where every section but the last names a
directory.

* `findEntry_component`: where names are unique, a path with one component more is found exactly if
  the path is a directory and the component is the name of one of its entries.
-/

namespace EszOs

open PathLookup (bind_eq_ok)

variable {v : Volume}

/-! ## The loop -/

/-- The directories of a volume: the clusters that the root and its subdirectories start with. -/
abbrev IsDirectoryOf (v : Volume) : Nat → Prop :=
  PathLookup.Below (dirEntries v) Entry.isDirectory Entry.firstCluster v.context.rootCluster

/-- No two entries of one directory have the same name. -/
def UniqueNames (v : Volume) : Prop :=
  ∀ cluster entries, IsDirectoryOf v cluster → dirEntries v cluster = .ok entries →
    (entries.map Entry.name).Nodup

/-- The lookup that `find_entry` makes. -/
abbrev resolveSections (v : Volume) (pathSections : List CString) (last : CString) :
    Except DirFault (Option Entry) :=
  PathLookup.resolve (dirEntries v) Entry.name Entry.isDirectory Entry.firstCluster pathSections last
    v.context.rootCluster

theorem findEntryLoop_eq (pathSections : List CString) (currCluster : Nat) :
    findEntryLoop v pathSections currCluster =
      PathLookup.descend (dirEntries v) Entry.name Entry.isDirectory Entry.firstCluster pathSections
        currCluster := by
  induction pathSections generalizing currCluster with
  | nil => rfl
  | cons pathSection pathSections ih =>
    rw [findEntryLoop, PathLookup.descend]
    cases dirEntries v currCluster with
    | error d => rfl
    | ok entries =>
      simp only [Except.bind, strEqual_eq]
      cases entries.find? fun e => e.isDirectory && decide (e.name = pathSection) with
      | none => rfl
      | some e => exact ih e.firstCluster

/-- The entry that is returned for what is found. -/
def returned : Option Entry → Entry
  | none => .empty
  | some e => { e with found := true }

theorem findSections_eq (pathSections : List CString) (last : CString) :
    findSections v (pathSections ++ [last]) = (resolveSections v pathSections last).map returned := by
  rw [findSections, List.dropLast_concat, findEntryLoop_eq, resolveSections, PathLookup.resolve]
  cases PathLookup.descend (dirEntries v) Entry.name Entry.isDirectory Entry.firstCluster
      pathSections v.context.rootCluster with
  | error d => rfl
  | ok found =>
    cases found with
    | none => rfl
    | some cluster =>
      have hlast : (pathSections ++ [last]).getLastD [] = last := by simp
      simp only [Except.bind, findLast, hlast, strEqual_eq]
      cases dirEntries v cluster with
      | error d => rfl
      | ok entries =>
        simp only [Except.map]
        cases entries.find? fun e => decide (e.name = last) with
        | none => rfl
        | some e => rfl

/-- An entry is found at the end of a lookup. -/
theorem findSections_found {pathSections : List CString} {last : CString} {e : Entry} :
    findSections v (pathSections ++ [last]) = .ok e ∧ e.found = true ↔
      ∃ x, resolveSections v pathSections last = .ok (some x) ∧ e = { x with found := true } := by
  rw [findSections_eq]
  cases resolveSections v pathSections last with
  | error d => simp [Except.map]
  | ok x =>
    cases x with
    | none =>
      refine iff_of_false ?_ (by simp)
      rintro ⟨h, hfound⟩
      cases h
      cases hfound
    | some x =>
      constructor
      · rintro ⟨h, -⟩
        cases h
        exact ⟨x, rfl, rfl⟩
      · rintro ⟨y, hy, rfl⟩
        cases hy
        exact ⟨rfl, rfl⟩

/-! ## Paths -/

theorem strSplit_ne_nil (text : CString) (splitChar : UInt8) : strSplit text splitChar ≠ [] :=
  strSplitLoop_ne_nil splitChar text []

theorem findEntry_root {path : CString} (h : normalizedPath path = []) :
    findEntry v path = .ok (rootEntry v) := if_pos (.inl h)

/-- A path whose sections fit is looked up section by section. -/
theorem findEntry_sections {path : CString} (hne : normalizedPath path ≠ [])
    (hroot : normalizedPath path ≠ [slash])
    (hdepth : (strSplit (normalizedPath path) slash).length ≤ maxPathDepth) :
    findEntry v path =
      (findSections v (strSplit (normalizedPath path) slash)).mapError .directory := by
  have hnot : ¬ (normalizedPath path = [] ∨ isRootPath (normalizedPath path) = true) := by
    simp [hne, hroot, isRootPath]
  have hstores : ¬ ∃ s ∈ findEntryStores path, maxPathDepth ≤ s.1 := by
    rw [strSplit_length] at hdepth
    have hlt := strSplitStores_lt_iff.mpr (Nat.lt_of_succ_le hdepth)
    rw [findEntryStores, if_neg hnot]
    rintro ⟨s, hs, hle⟩
    exact absurd (hlt s hs) (Nat.not_lt.mpr hle)
  rw [findEntry, if_neg hnot, if_neg hstores]

theorem mapError_eq_ok {ε ε' α : Type} {m : Except ε α} {f : ε → ε'} {a : α} :
    m.mapError f = .ok a ↔ m = .ok a := by
  cases m <;> simp [Except.mapError]

theorem normalizedPath_slash (t : CString) : normalizedPath (slash :: t) = t := rfl

theorem normalizedPath_of_ne {a : UInt8} (h : a ≠ slash) (t : CString) :
    normalizedPath (a :: t) = a :: t := if_neg fun heq => h (Option.some.inj heq)

theorem normalizedPath_append {p : CString} (hp : p ≠ []) (q : CString) :
    normalizedPath (p ++ q) = normalizedPath p ++ q := by
  obtain ⟨a, t, rfl⟩ := List.exists_cons_of_ne_nil hp
  by_cases ha : a = slash
  · rw [ha, List.cons_append, normalizedPath_slash, normalizedPath_slash]
  · rw [List.cons_append, normalizedPath_of_ne ha, normalizedPath_of_ne ha, List.cons_append]

/-- What is left of a path that does not end with a slash. -/
theorem normalizedPath_ne {p : CString} (hne : p ≠ []) (hp : p.getLast? ≠ some slash) :
    normalizedPath p ≠ [] ∧ normalizedPath p ≠ [slash] := by
  obtain ⟨a, t, rfl⟩ := List.exists_cons_of_ne_nil hne
  by_cases ha : a = slash
  · subst ha
    rw [normalizedPath_slash]
    constructor
    · rintro rfl
      exact hp rfl
    · rintro rfl
      exact hp rfl
  · rw [normalizedPath_of_ne ha]
    exact ⟨List.cons_ne_nil a t, fun h => ha (List.cons.inj h).1⟩

/-- The lookup of a path that does not end with a slash. -/
theorem findEntry_resolve {p : CString} (hne : p ≠ []) (hp : p.getLast? ≠ some slash)
    {init : List CString} {last : CString}
    (hsections : strSplit (normalizedPath p) slash = init ++ [last])
    (hdepth : (init ++ [last]).length ≤ maxPathDepth) :
    findEntry v p = ((resolveSections v init last).map returned).mapError .directory := by
  obtain ⟨hnil, hroot⟩ := normalizedPath_ne hne hp
  rw [findEntry_sections hnil hroot (hsections ▸ hdepth), hsections, findSections_eq]

theorem findEntry_found {p : CString} (hne : p ≠ []) (hp : p.getLast? ≠ some slash)
    {init : List CString} {last : CString}
    (hsections : strSplit (normalizedPath p) slash = init ++ [last])
    (hdepth : (init ++ [last]).length ≤ maxPathDepth) {e : Entry} :
    findEntry v p = .ok e ∧ e.found = true ↔
      ∃ x, resolveSections v init last = .ok (some x) ∧ e = { x with found := true } := by
  rw [findEntry_resolve hne hp hsections hdepth, mapError_eq_ok, ← findSections_eq]
  exact findSections_found

/-- A path that ends with a component. -/
theorem getLast?_component (p : CString) {c : CString} (hc : c ≠ []) (hslash : slash ∉ c) :
    (p ++ slash :: c).getLast? ≠ some slash := by
  obtain ⟨init, last, rfl⟩ := (List.eq_nil_or_concat c).resolve_left hc
  have hne : last ≠ slash := fun h => hslash (by simp [h])
  rw [List.concat_eq_append, ← List.cons_append, ← List.append_assoc, List.getLast?_concat]
  exact fun h => hne (Option.some.inj h)

/-- In a directory that is found, the next component is the first entry with its name. -/
theorem findEntry_child {p c : CString} {d : Entry} (hp : p.getLast? ≠ some slash) (hc : c ≠ [])
    (hslash : slash ∉ c)
    (hdepth : (strSplit (normalizedPath (p ++ slash :: c)) slash).length ≤ maxPathDepth)
    (hd : findEntry v p = .ok d) (hfound : d.found = true) (hdir : d.isDirectory = true) :
    findEntry v (p ++ slash :: c) = ((dirEntries v d.firstCluster).map fun entries =>
      returned (entries.find? fun e => decide (e.name = c))).mapError .directory := by
  have hsingle : strSplit c slash = [c] := strSplit_of_not_mem hslash
  have hlast := getLast?_component p hc hslash
  by_cases hnil : p = []
  · subst hnil
    rw [findEntry_root rfl] at hd
    cases hd
    have hroot : (rootEntry v).firstCluster = v.context.rootCluster := rfl
    rw [@findEntry_resolve v _ (by simp) hlast [] c hsingle (show 1 ≤ maxPathDepth by decide), hroot]
    show Except.mapError _ (Except.map _ ((dirEntries v v.context.rootCluster).bind _)) = _
    cases dirEntries v v.context.rootCluster with
    | error f => rfl
    | ok entries => rfl
  · obtain ⟨init, last, hinit⟩ := (List.eq_nil_or_concat _).resolve_left
      (strSplit_ne_nil (normalizedPath p) slash)
    rw [List.concat_eq_append] at hinit
    have hsections : strSplit (normalizedPath (p ++ slash :: c)) slash = init ++ [last] ++ [c] := by
      rw [normalizedPath_append hnil, strSplit_append, hinit, hsingle]
    rw [hsections] at hdepth
    have hdepth' : (init ++ [last]).length ≤ maxPathDepth := by
      rw [List.length_append] at hdepth
      exact Nat.le_trans (Nat.le_add_right _ _) hdepth
    obtain ⟨b, hb, rfl⟩ := (findEntry_found hnil hp hinit hdepth').mp ⟨hd, hfound⟩
    rw [findEntry_resolve (by simp) hlast hsections hdepth, resolveSections,
      PathLookup.resolve_of_isDir hb hdir]
    cases dirEntries v b.firstCluster with
    | error f => rfl
    | ok entries => rfl

/-- A path with one component more is found exactly if the path is a directory that lists an entry
with this name. -/
theorem findEntry_component (hunique : UniqueNames v) {p c : CString}
    (hp : p.getLast? ≠ some slash) (hc : c ≠ []) (hslash : slash ∉ c)
    (hdepth : (strSplit (normalizedPath (p ++ slash :: c)) slash).length ≤ maxPathDepth)
    (e : Entry) :
    (findEntry v (p ++ slash :: c) = .ok e ∧ e.found = true) ↔
      ∃ d, findEntry v p = .ok d ∧ d.found = true ∧ d.isDirectory = true ∧
        ∃ entries, dirEntries v d.firstCluster = .ok entries ∧
          ∃ x ∈ entries, x.name = c ∧ e = { x with found := true } := by
  have hsingle : strSplit c slash = [c] := strSplit_of_not_mem hslash
  have hlast := getLast?_component p hc hslash
  by_cases hnil : p = []
  · subst hnil
    rw [@findEntry_found v _ (by simp) hlast [] c hsingle (show 1 ≤ maxPathDepth by decide),
      findEntry_root rfl]
    constructor
    · rintro ⟨x, hx, rfl⟩
      obtain ⟨entries, hlist, hmem, hname⟩ := (PathLookup.resolve_nil hunique).mp hx
      exact ⟨rootEntry v, rfl, rfl, rfl, entries, hlist, x, hmem, hname, rfl⟩
    · rintro ⟨d, hd, -, -, entries, hlist, x, hmem, hname, rfl⟩
      cases hd
      exact ⟨x, (PathLookup.resolve_nil hunique).mpr ⟨entries, hlist, hmem, hname⟩, rfl⟩
  · obtain ⟨init, last, hinit⟩ := (List.eq_nil_or_concat _).resolve_left
      (strSplit_ne_nil (normalizedPath p) slash)
    rw [List.concat_eq_append] at hinit
    have hsections : strSplit (normalizedPath (p ++ slash :: c)) slash = init ++ [last] ++ [c] := by
      rw [normalizedPath_append hnil, strSplit_append, hinit, hsingle]
    rw [hsections] at hdepth
    have hdepth' : (init ++ [last]).length ≤ maxPathDepth := by
      rw [List.length_append] at hdepth
      exact Nat.le_trans (Nat.le_add_right _ _) hdepth
    have hdir := @findEntry_found v p hnil hp init last hinit hdepth'
    rw [findEntry_found (by simp) hlast hsections hdepth]
    constructor
    · rintro ⟨x, hx, rfl⟩
      obtain ⟨b, hb, hisDir, entries, hlist, hmem, hname⟩ :=
        (PathLookup.resolve_concat hunique).mp hx
      obtain ⟨hd, hfound⟩ := hdir.mpr ⟨b, hb, rfl⟩
      exact ⟨_, hd, hfound, hisDir, entries, hlist, x, hmem, hname, rfl⟩
    · rintro ⟨d, hd, hfound, hisDir, entries, hlist, x, hmem, hname, rfl⟩
      obtain ⟨b, hb, rfl⟩ := hdir.mp ⟨hd, hfound⟩
      exact ⟨x, (PathLookup.resolve_concat hunique).mpr
        ⟨b, hb, hisDir, entries, hlist, hmem, hname⟩, rfl⟩

/-! ## In a directory -/

theorem findEntry_depth {q : CString} {e : Entry} (h : findEntry v q = .ok e) :
    (strSplit (normalizedPath q) slash).length ≤ maxPathDepth := by
  by_cases hnot : normalizedPath q = [] ∨ isRootPath (normalizedPath q) = true
  · rcases hnot with hnil | hroot
    · rw [hnil]
      decide
    · rw [eq_of_beq hroot]
      decide
  · rw [findEntry, if_neg hnot] at h
    split at h
    · cases h
    · rename_i hstores
      rw [findEntryStores, if_neg hnot] at hstores
      rw [strSplit_length]
      refine Nat.succ_le_of_lt (strSplitStores_lt_iff.mp fun s hs => ?_)
      exact Nat.lt_of_not_le fun hle => hstores ⟨s, hs, hle⟩

/-- What is found has a name without a slash. -/
theorem findEntry_name {q : CString} {e : Entry} (h : findEntry v q = .ok e)
    (hfound : e.found = true) : slash ∉ e.name := by
  by_cases hnot : normalizedPath q = [] ∨ isRootPath (normalizedPath q) = true
  · rw [findEntry, if_pos hnot] at h
    cases h
    exact List.not_mem_nil
  · rw [not_or] at hnot
    rw [findEntry_sections hnot.1 (by simpa [isRootPath] using hnot.2) (findEntry_depth h),
      mapError_eq_ok] at h
    obtain ⟨init, last, hinit⟩ := (List.eq_nil_or_concat _).resolve_left
      (strSplit_ne_nil (normalizedPath q) slash)
    rw [List.concat_eq_append] at hinit
    rw [hinit] at h
    obtain ⟨x, hx, rfl⟩ := findSections_found.mp ⟨h, hfound⟩
    obtain ⟨d, -, hlist⟩ := bind_eq_ok.mp hx
    cases d with
    | none => cases hlist
    | some d =>
      obtain ⟨entries, -, hfind⟩ := bind_eq_ok.mp hlist
      have hname := List.find?_some (Except.ok.inj hfind)
      rw [decide_eq_true_iff] at hname
      show slash ∉ x.name
      rw [hname]
      exact not_mem_of_mem_strSplit (hinit ▸ List.mem_append_right _ (List.mem_singleton.mpr rfl))

/-! ## Small volumes -/

/-- A volume with the file FOO.TXT in every cluster. -/
def fooVolume : Volume where
  context := smallContext
  read _ _ i := if h : i < 32 then fooRecord ⟨i, h⟩ else 0
  bytesPerSector_pos := smallContext_pos

/-- A volume with the entries of its FAT and the records of its clusters, which have one sector. -/
def rootVolume (fat : List Nat) (clusters : List (List DirectoryEntry)) : Volume where
  context := smallContext
  read lba _ i :=
    if lba < 64 then UInt8.ofNat (fat.getD (i / 4) 0 >>> (8 * (i % 4)))
    else recordArray (clusters.getD (lba - 64) []) (i / 32)
      ⟨i % 32, Nat.mod_lt i (by decide : 0 < 32)⟩
  bytesPerSector_pos := smallContext_pos

/-- A root directory with a file of one byte in cluster 3. -/
def byteVolume : Volume :=
  rootVolume [0, 0, 0x0FFFFFFF, 0x0FFFFFFF]
    [[fun i => if i.val = 26 then 3 else if i.val = 28 then 1 else fooRecord i]]

/-- The record of the directory SUB in cluster 3. -/
def subRecord : DirectoryEntry := fun i =>
  if i.val = 11 then 0x10 else if i.val = 26 then 3 else (literal "SUB        ").getD i 0

/-- A root directory with a directory that holds the file. -/
def subVolume : Volume := rootVolume [0, 0, 0x0FFFFFFF, 0x0FFFFFFF] [[subRecord], [fooRecord]]

theorem dirEntries_subVolume :
    dirEntries subVolume 2 = .ok [subRecord.toEntry (literal "sub")] ∧
      dirEntries subVolume 3 = .ok [fooRecord.toEntry (literal "foo.txt")] := by
  decide +kernel

theorem uniqueNames_subVolume : UniqueNames subVolume := by
  obtain ⟨hroot, hsub⟩ := dirEntries_subVolume
  have htree {cluster : Nat} (h : IsDirectoryOf subVolume cluster) : cluster = 2 ∨ cluster = 3 := by
    induction h with
    | root => exact .inl rfl
    | child _ hlist hmem hdir ih =>
      rcases ih with rfl | rfl
      · cases hroot.symm.trans hlist
        rw [List.mem_singleton.mp hmem]
        exact .inr (by decide)
      · cases hsub.symm.trans hlist
        rw [List.mem_singleton.mp hmem] at hdir
        exact absurd hdir (by decide)
  intro cluster entries h hlist
  rcases htree h with rfl | rfl
  · cases hroot.symm.trans hlist
    decide
  · cases hsub.symm.trans hlist
    decide

/-- The file in the directory is found. -/
theorem findEntry_foo :
    findEntry subVolume (literal "/sub/foo.txt") =
      .ok { fooRecord.toEntry (literal "foo.txt") with found := true } := by
  refine ((findEntry_component uniqueNames_subVolume (p := literal "/sub")
    (c := literal "foo.txt") (by decide) (by decide) (by decide) (by decide) _).mpr ?_).1
  have hfind : findEntry subVolume (literal "/sub") =
      .ok { subRecord.toEntry (literal "sub") with found := true } := by
    decide +kernel
  exact ⟨_, hfind, rfl, by decide, _, dirEntries_subVolume.2, _, List.mem_singleton.mpr rfl, rfl,
    rfl⟩

end EszOs
