import EszOs.Storage.ClusterChain
import EszOs.Storage.LongNames
import EszOs.Storage.Lookup

/-!
# Directories of more than one cluster

A directory is a chain of clusters, but `read_dir_entries` reads its first cluster alone.

* `visible_iff`: the live entries of a directory can be listed and found exactly if the lookups along
  the first clusters get to the directory, each entry is the first one with its name in the first
  cluster, and its path can be looked up.
* `firstNamed_iff`: where names are unique, that is to say that the other clusters hold no live
  entry.
-/

namespace EszOs

open PathLookup (Leads bind_eq_ok)

variable {v : Volume} {path : CString} {cluster : Nat} {chain : List Nat} {entries : List Entry}

/-! ## The records of a directory -/

/-- The records of a cluster. -/
def clusterRecords (v : Volume) (cluster : Nat) : List DirectoryEntry :=
  (List.range (maxEntryCount v.context.clusterSizeInBytes)).map (directoryEntries
    (v.read (clusterToLba v.context cluster) v.context.sectorsPerCluster))

/-- The records of a chain before the end mark. -/
def chainRecords (v : Volume) (chain : List Nat) : List DirectoryEntry :=
  (chain.flatMap (clusterRecords v)).takeWhile fun r => r.firstByte ≠ 0

/-- The entries whose 8.3 records are not deleted. -/
def liveEntries (records : List DirectoryEntry) (entries : List Entry) : List Entry :=
  (((records.filter fun r => r.kind = .short).zip entries).filter
    fun p => p.1.firstByte ≠ deletedMark).map Prod.snd

/-- The records of the chain that starts with a cluster decode to the entries. -/
structure IsDirectory (v : Volume) (cluster : Nat) (chain : List Nat) (entries : List Entry) : Prop where
  isChain : IsClusterChain v cluster chain
  decode_eq : decode none (chainRecords v chain) = some entries
  named : ∀ e ∈ liveEntries (chainRecords v chain) entries, e.name ≠ []

/-- A live subdirectory, in any cluster of the directory, starts with the cluster `next`. -/
def Subdirectory (v : Volume) (cluster : Nat) (name : CString) (next : Nat) : Prop :=
  ∃ chain entries e, IsDirectory v cluster chain entries ∧
    e ∈ liveEntries (chainRecords v chain) entries ∧ e.isDirectory = true ∧ e.name = name ∧
      e.firstCluster = next

/-- The names of the directories on a path, from the root on. -/
def pathNames (path : CString) : List CString :=
  if path = [] then [] else strSplit (normalizedPath path) slash

/-- The path leads through the volume to the directory that starts with a cluster. -/
structure IsDirectoryAt (v : Volume) (path : CString) (cluster : Nat) (chain : List Nat)
    (entries : List Entry) : Prop extends IsDirectory v cluster chain entries where
  last_ne : path.getLast? ≠ some slash
  leads : Leads (Subdirectory v) (pathNames path) v.context.rootCluster cluster

/-- An entry of the directory is listed, and it is found by its path. -/
def Visible (v : Volume) (path : CString) (e : Entry) : Prop :=
  (∃ es, getEntries v path = .ok es ∧ e ∈ es) ∧
    findEntry v (path ++ slash :: e.name) = .ok { e with found := true }

/-- The entries of the first cluster of a directory. -/
def firstEntries (v : Volume) (cluster : Nat) : Option (List Entry) :=
  if IsDataCluster cluster then decode none (chainRecords v [cluster]) else some []

/-- The first subdirectory with the name in the first cluster starts with the cluster `next`. -/
def FirstSubdirectory (v : Volume) (cluster : Nat) (name : CString) (next : Nat) : Prop :=
  ∃ entries e, firstEntries v cluster = some entries ∧
    (entries.find? fun x => x.isDirectory && decide (x.name = name)) = some e ∧
      e.firstCluster = next

/-- In the first clusters of the directories on a path, no file with the last name is in front of
the directory. -/
def Unshadowed (v : Volume) (names : List CString) : Prop :=
  ∀ init last, names = init ++ [last] → ∀ k es x,
    Leads (FirstSubdirectory v) init v.context.rootCluster k → firstEntries v k = some es →
      (es.find? fun x => decide (x.name = last)) = some x → x.isDirectory = true

/-- The names lead along the first clusters to the directory that starts with a cluster. -/
def FirstLeads (v : Volume) (names : List CString) (cluster : Nat) : Prop :=
  Leads (FirstSubdirectory v) names v.context.rootCluster cluster ∧ Unshadowed v names

/-- The entry is the first one with its name in the first cluster of a directory. -/
def FirstNamed (v : Volume) (cluster : Nat) (e : Entry) : Prop :=
  ∃ es, firstEntries v cluster = some es ∧
    es.find? (fun x => decide (x.name = e.name)) = some e

/-- The path of the entry has a component for it and not too many components. -/
def HasPath (path : CString) (e : Entry) : Prop :=
  slash ∉ e.name ∧
    (strSplit (normalizedPath (path ++ slash :: e.name)) slash).length ≤ maxPathDepth

instance (path : CString) (e : Entry) : Decidable (HasPath path e) :=
  inferInstanceAs (Decidable (_ ∧ _))

/-! ## The first cluster -/

theorem dirEntries_eq {cluster : Nat} (h : IsDataCluster cluster) :
    dirEntries v cluster = listed (decode none (chainRecords v [cluster])) := by
  have hread := getEntriesInDir_decode v.context.clusterSizeInBytes (directoryEntries
    (v.read (clusterToLba v.context cluster) v.context.sectorsPerCluster))
  have hnot : ¬ (cluster < 2 ∨ eocStart ≤ cluster) := fun hc => not_isDataCluster.mpr hc h
  rw [dirEntries, readDirEntries, if_neg hnot, chainRecords, List.flatMap_singleton]
  refine Eq.trans ?_ hread
  show ((getEntriesInDir _ _ _ _).map _).map _ = (getEntriesInDir _ _ _ _).map _
  cases getEntriesInDir v.context.clusterSizeInBytes (directoryEntries
    (v.read (clusterToLba v.context cluster) v.context.sectorsPerCluster))
    (clearedEntries v.context.clusterSizeInBytes) 0 with
  | error f => rfl
  | ok l => rfl

theorem listed_eq_ok {es : Option (List Entry)} {l : List Entry} :
    listed es = .ok l ↔ es = some l := by
  cases es with
  | none => simp [listed]
  | some es => simp [listed]

theorem dirEntries_firstEntries (v : Volume) (cluster : Nat) :
    dirEntries v cluster = listed (firstEntries v cluster) := by
  rw [firstEntries]
  split
  · exact dirEntries_eq ‹_›
  · rw [dirEntries, readDirEntries, if_pos (not_isDataCluster.mp ‹_›)]
    rfl

theorem dirEntries_eq_ok {es : List Entry} :
    dirEntries v cluster = .ok es ↔ firstEntries v cluster = some es := by
  rw [dirEntries_firstEntries, listed_eq_ok]

/-- What is decoded has not been found yet. -/
theorem found_of_decode {pending : Option CString} {records : List DirectoryEntry}
    (h : decode pending records = some entries) : ∀ e ∈ entries, e.found = false := by
  intro e he
  obtain ⟨r, -, name, rfl⟩ := mem_decode h he
  rfl

theorem mem_of_mem_liveEntries {records : List DirectoryEntry} {e : Entry}
    (h : e ∈ liveEntries records entries) : e ∈ entries := by
  obtain ⟨p, hp, rfl⟩ := List.mem_map.mp h
  exact (List.of_mem_zip (List.mem_filter.mp hp).1).2

/-- What is decoded from the first cluster has not been found yet. -/
theorem found_of_firstEntries {es : List Entry} (h : firstEntries v cluster = some es) :
    ∀ e ∈ es, e.found = false := by
  rw [firstEntries] at h
  split at h
  · exact found_of_decode h
  · cases h
    exact fun e he => absurd he List.not_mem_nil

/-- The same entry, found. -/
theorem eq_of_found_eq {e x : Entry} (he : e.found = false) (hx : x.found = false)
    (h : { x with found := true } = { e with found := true }) : x = e := by
  cases e
  cases x
  simp_all

/-- In a directory that is found, an entry is visible exactly if it has a path and is the first one
with its name. -/
theorem visible_of_found {d e : Entry} (hlast : path.getLast? ≠ some slash)
    (hd : findEntry v path = .ok d) (hfound : d.found = true) (hdir : d.isDirectory = true)
    (hnamed : e.name ≠ []) (he : e.found = false) :
    Visible v path e ↔ HasPath path e ∧ FirstNamed v d.firstCluster e := by
  constructor
  · rintro ⟨-, hfind⟩
    have hname := findEntry_name hfind rfl
    have hpath : HasPath path e := ⟨hname, findEntry_depth hfind⟩
    refine ⟨hpath, ?_⟩
    rw [findEntry_child hlast hnamed hpath.1 hpath.2 hd hfound hdir, dirEntries_firstEntries,
      mapError_eq_ok] at hfind
    cases hes : firstEntries v d.firstCluster with
    | none =>
      rw [hes] at hfind
      cases hfind
    | some es =>
      rw [hes] at hfind
      have hreturned : returned (es.find? fun x => decide (x.name = e.name)) =
          { e with found := true } := Except.ok.inj hfind
      refine ⟨es, hes, ?_⟩
      cases hx : es.find? fun x => decide (x.name = e.name) with
      | none =>
        rw [hx] at hreturned
        cases congrArg Entry.found hreturned
      | some x =>
        rw [hx] at hreturned
        rw [eq_of_found_eq he (found_of_firstEntries hes x (List.mem_of_find?_eq_some hx)) hreturned]
  · rintro ⟨hpath, es, hes, hfirst⟩
    have hlist := dirEntries_eq_ok.mpr hes
    refine ⟨⟨es, ?_, List.mem_of_find?_eq_some hfirst⟩, ?_⟩
    · rw [getEntries, hd]
      show (if ¬ d.found = true ∨ ¬ d.isDirectory = true then _ else _) = _
      rw [if_neg (by simp [hfound, hdir]), hlist]
      rfl
    · rw [findEntry_child hlast hnamed hpath.1 hpath.2 hd hfound hdir, hlist]
      show Except.mapError _ (Except.ok (returned (es.find? _))) = _
      rw [hfirst]
      rfl

/-! ## The directories on the path -/

/-- The steps of a lookup. -/
theorem firstDir_eq : PathLookup.FirstDir (dirEntries v) Entry.name Entry.isDirectory
    Entry.firstCluster = FirstSubdirectory v := by
  funext cluster name next
  simp only [PathLookup.FirstDir, FirstSubdirectory, dirEntries_eq_ok]

theorem firstSubdirectory_eq {name : CString} {next next' : Nat}
    (h : FirstSubdirectory v cluster name next) (h' : FirstSubdirectory v cluster name next') :
    next' = next := by
  obtain ⟨es, e, hes, he, rfl⟩ := h
  obtain ⟨es', e', hes', he', rfl⟩ := h'
  cases hes.symm.trans hes'
  cases he.symm.trans he'
  rfl

/-- What the last name of a path is found to be. -/
theorem resolveSections_eq_ok {init : List CString} {last : CString} {x : Entry} :
    resolveSections v init last = .ok (some x) ↔
      ∃ k es, Leads (FirstSubdirectory v) init v.context.rootCluster k ∧
        firstEntries v k = some es ∧ (es.find? fun x => decide (x.name = last)) = some x := by
  rw [resolveSections, PathLookup.resolve, bind_eq_ok]
  constructor
  · rintro ⟨d, hd, hlist⟩
    cases d with
    | none => cases hlist
    | some k =>
      obtain ⟨es, hes, hfind⟩ := bind_eq_ok.mp hlist
      rw [PathLookup.descend_eq_iff, firstDir_eq] at hd
      exact ⟨k, es, hd, dirEntries_eq_ok.mp hes, Except.ok.inj hfind⟩
  · rintro ⟨k, es, hd, hes, hfind⟩
    rw [← firstDir_eq, ← PathLookup.descend_eq_iff] at hd
    exact ⟨some k, hd, bind_eq_ok.mpr ⟨es, dirEntries_eq_ok.mpr hes, by rw [hfind]⟩⟩

/-- A path is found to be a directory exactly if the first clusters lead to it. -/
theorem findEntry_directory_iff (hlast : path.getLast? ≠ some slash)
    (hdepth : (pathNames path).length ≤ maxPathDepth) :
    (∃ d, findEntry v path = .ok d ∧ d.found = true ∧ d.isDirectory = true ∧
      d.firstCluster = cluster) ↔ FirstLeads v (pathNames path) cluster := by
  by_cases hnil : path = []
  · subst hnil
    rw [findEntry_root rfl, FirstLeads]
    constructor
    · rintro ⟨d, hd, -, -, rfl⟩
      cases hd
      exact ⟨rfl, fun init last h => absurd h (by simp [pathNames])⟩
    · rintro ⟨h, -⟩
      exact ⟨rootEntry v, rfl, rfl, rfl, h⟩
  · rw [pathNames, if_neg hnil] at hdepth ⊢
    obtain ⟨init, last, hinit⟩ := (List.eq_nil_or_concat _).resolve_left
      (strSplit_ne_nil (normalizedPath path) slash)
    rw [List.concat_eq_append] at hinit
    rw [hinit] at hdepth ⊢
    have hfind {e : Entry} := @findEntry_found v path hnil hlast init last hinit hdepth e
    rw [FirstLeads, PathLookup.leads_concat]
    constructor
    · rintro ⟨d, hd, hfound, hdir, rfl⟩
      obtain ⟨x, hx, rfl⟩ := hfind.mp ⟨hd, hfound⟩
      obtain ⟨k, es, hk, hes, hx⟩ := resolveSections_eq_ok.mp hx
      have hdir : x.isDirectory = true := hdir
      have hfirst := PathLookup.find?_isDir.mp ⟨hx, hdir⟩
      refine ⟨⟨k, hk, es, x, hes, hfirst.1, rfl⟩, fun init' last' heq k' es' x' hk' hes' hx' => ?_⟩
      obtain ⟨rfl, hlasts⟩ := List.append_inj' heq rfl
      cases hlasts
      obtain rfl : k' = k := hk.eq hk' fun _ _ _ _ _ _ => firstSubdirectory_eq
      cases hes.symm.trans hes'
      exact hfirst.2 x' hx'
    · rintro ⟨⟨k, hk, es, x, hes, hx, rfl⟩, hshadow⟩
      have hfirst := PathLookup.find?_isDir.mpr ⟨hx, fun b hb => hshadow init last rfl k es b hk hes hb⟩
      obtain ⟨hd, hfound⟩ := hfind.mpr ⟨x, resolveSections_eq_ok.mpr ⟨k, es, hk, hes, hfirst.1⟩, rfl⟩
      exact ⟨_, hd, hfound, hfirst.2, rfl⟩

/-! ## The other clusters -/

/-- The records of a chain behind those of its first cluster. -/
def laterRecords (v : Volume) (chain : List Nat) : List DirectoryEntry :=
  (chainRecords v chain).drop (chainRecords v (chain.take 1)).length

theorem chainRecords_singleton (v : Volume) (cluster : Nat) :
    chainRecords v [cluster] = (clusterRecords v cluster).takeWhile fun r => r.firstByte ≠ 0 := by
  rw [chainRecords, List.flatMap_singleton]

theorem chainRecords_cons (v : Volume) (cluster : Nat) (clusters : List Nat) :
    chainRecords v (cluster :: clusters) =
      chainRecords v [cluster] ++ laterRecords v (cluster :: clusters) := by
  have hprefix : chainRecords v [cluster] <+: chainRecords v (cluster :: clusters) := by
    rw [chainRecords_singleton, chainRecords, List.flatMap_cons, List.takeWhile_append]
    split
    · rename_i hall
      rw [List.takeWhile_prefix _ |>.eq_of_length hall]
      exact List.prefix_append _ _
    · exact List.prefix_rfl
  exact (List.prefix_iff_eq_append.mp hprefix).symm

theorem liveEntries_append {records records' : List DirectoryEntry} {es es' : List Entry}
    (h : es.length = records.countP fun r => r.kind = .short) :
    liveEntries (records ++ records') (es ++ es') =
      liveEntries records es ++ liveEntries records' es' := by
  rw [List.countP_eq_length_filter] at h
  rw [liveEntries, List.filter_append, List.zip_append h.symm, List.filter_append, List.map_append]
  rfl

/-- A live 8.3 record has a live entry. -/
theorem liveEntries_eq_nil {records : List DirectoryEntry} {es : List Entry}
    (h : es.length = records.countP fun r => r.kind = .short) :
    liveEntries records es = [] ↔ ∀ r ∈ records, r.kind = .short → r.firstByte = deletedMark := by
  rw [List.countP_eq_length_filter] at h
  have hfst : ((records.filter fun r => r.kind = .short).zip es).map Prod.fst =
      records.filter fun r => r.kind = .short := List.map_fst_zip h.symm.le
  rw [liveEntries, List.map_eq_nil_iff, List.filter_eq_nil_iff]
  constructor
  · intro hall r hr hkind
    have hmem : r ∈ records.filter fun r => r.kind = .short :=
      List.mem_filter.mpr ⟨hr, by simp [hkind]⟩
    rw [← hfst] at hmem
    obtain ⟨p, hp, rfl⟩ := List.mem_map.mp hmem
    simpa using hall p hp
  · intro hall p hp
    have hmem := List.mem_map_of_mem (f := Prod.fst) hp
    rw [hfst] at hmem
    obtain ⟨hr, hkind⟩ := List.mem_filter.mp hmem
    simpa using hall p.1 hr (by simpa using hkind)

/-- With unique names, all live entries are in the first cluster exactly if the others have no live
8.3 record. -/
theorem firstNamed_iff {clusters : List Nat} (hdata : IsDataCluster cluster)
    (hentries : decode none (chainRecords v (cluster :: clusters)) = some entries)
    (hunique : (entries.map Entry.name).Nodup) :
    (∀ e ∈ liveEntries (chainRecords v (cluster :: clusters)) entries, FirstNamed v cluster e) ↔
      ∀ r ∈ laterRecords v (cluster :: clusters), r.kind = .short → r.firstByte = deletedMark := by
  have hfirst : firstEntries v cluster = decode none (chainRecords v [cluster]) := if_pos hdata
  rw [chainRecords_cons] at hentries ⊢
  obtain ⟨es, hes, hmap⟩ := Option.bind_eq_some_iff.mp
    ((decode_append [] (chainRecords v [cluster]) _).symm.trans hentries)
  obtain ⟨es', hes', rfl⟩ := Option.map_eq_some_iff.mp hmap
  rw [liveEntries_append (decode_length hes), ← liveEntries_eq_nil (decode_length hes')]
  rw [List.map_append, List.nodup_append] at hunique
  constructor
  · intro h
    refine List.eq_nil_iff_forall_not_mem.mpr fun e he => ?_
    obtain ⟨es₁, hes₁, hfind⟩ := h e (List.mem_append_right _ he)
    rw [show collected [] = none from rfl, ← hfirst] at hes
    cases hes.symm.trans hes₁
    exact hunique.2.2 e.name (List.mem_map_of_mem (List.mem_of_find?_eq_some hfind)) e.name
      (List.mem_map_of_mem (mem_of_mem_liveEntries he)) rfl
  · intro hnil e he
    rw [hnil, List.append_nil] at he
    exact ⟨es, hfirst.trans hes, (PathLookup.find?_key_eq hunique.1 e.name e).mpr
      ⟨mem_of_mem_liveEntries he, rfl⟩⟩

/-- The entries of the first cluster are the first entries of the directory. -/
theorem IsDirectory.firstEntries (h : IsDirectory v cluster chain entries) :
    ∃ es, firstEntries v cluster = some es ∧ es <+: entries := by
  have hchain := h.isChain
  cases hchain with
  | stop hstop => exact ⟨[], if_neg hstop, List.nil_prefix⟩
  | step hdata _ =>
    have hentries := h.decode_eq
    rw [chainRecords_cons] at hentries
    obtain ⟨es, hes, hmap⟩ := Option.bind_eq_some_iff.mp
      ((decode_append [] (chainRecords v [cluster]) _).symm.trans hentries)
    obtain ⟨es', -, rfl⟩ := Option.map_eq_some_iff.mp hmap
    exact ⟨es, (if_pos hdata).trans hes, List.prefix_append es es'⟩

/-! ## The whole path -/

/-- No two entries of a directory have the same name, in any of its clusters. -/
def UniqueInChains (v : Volume) : Prop :=
  ∀ names cluster chain entries, Leads (Subdirectory v) names v.context.rootCluster cluster →
    IsDirectory v cluster chain entries → (entries.map Entry.name).Nodup

/-- With unique names, a name in the first cluster is that of the entry. -/
theorem eq_of_firstEntries (hd : IsDirectory v cluster chain entries)
    (hunique : (entries.map Entry.name).Nodup) {es : List Entry}
    (hes : firstEntries v cluster = some es) {e x : Entry} (he : e ∈ entries) (hx : x ∈ es)
    (hname : x.name = e.name) : x = e := by
  obtain ⟨es', hes', hfirst⟩ := hd.firstEntries
  cases hes.symm.trans hes'
  exact List.inj_on_of_nodup_map hunique (hfirst.subset hx) he hname

/-- With unique names, the first clusters lead to no other directory than the names do. -/
theorem cluster_eq_of_leads (hunique : UniqueInChains v) {names : List CString} {k : Nat}
    (h : Leads (Subdirectory v) names v.context.rootCluster cluster)
    (h' : Leads (FirstSubdirectory v) names v.context.rootCluster k) : k = cluster := by
  refine h.eq h' fun names c name next next' hc hnext hnext' => ?_
  obtain ⟨chain, entries, e, hd, he, -, rfl, rfl⟩ := hnext
  obtain ⟨es, x, hes, hx, rfl⟩ := hnext'
  have hname := List.find?_some hx
  simp only [Bool.and_eq_true, decide_eq_true_eq] at hname
  rw [eq_of_firstEntries hd (hunique names c chain entries hc hd) hes (mem_of_mem_liveEntries he)
    (List.mem_of_find?_eq_some hx) hname.2]

theorem IsDirectoryAt.unshadowed (h : IsDirectoryAt v path cluster chain entries)
    (hunique : UniqueInChains v) : Unshadowed v (pathNames path) := by
  intro init last hnames k es x hk hes hx
  have hleads := h.leads
  rw [hnames, PathLookup.leads_concat] at hleads
  obtain ⟨c, hc, chain', entries', e, hd, he, hdir, rfl, -⟩ := hleads
  obtain rfl := cluster_eq_of_leads hunique hc hk
  have hname := List.find?_some hx
  rw [decide_eq_true_eq] at hname
  rw [eq_of_firstEntries hd (hunique init k chain' entries' hc hd) hes (mem_of_mem_liveEntries he)
    (List.mem_of_find?_eq_some hx) hname]
  exact hdir

theorem pathNames_child_depth {e : Entry} (h : HasPath path e) :
    (pathNames path).length ≤ maxPathDepth := by
  rw [pathNames]
  split
  · exact Nat.zero_le _
  · rename_i hnil
    have hdepth := h.2
    rw [normalizedPath_append hnil, strSplit_append, List.length_append] at hdepth
    exact (Nat.le_add_right _ _).trans hdepth

/-- An entry of a directory is visible exactly if the first clusters lead to a directory in whose
first cluster it is the first one with its name, and it has a path. -/
theorem IsDirectoryAt.visible_entry (h : IsDirectoryAt v path cluster chain entries) {e : Entry}
    (he : e ∈ liveEntries (chainRecords v chain) entries) :
    Visible v path e ↔
      HasPath path e ∧ ∃ k, FirstLeads v (pathNames path) k ∧ FirstNamed v k e := by
  have hfound : e.found = false := found_of_decode h.decode_eq e (mem_of_mem_liveEntries he)
  have hentry {d : Entry} := @visible_of_found v path d e h.last_ne
  constructor
  · intro hvisible
    have hname := findEntry_name hvisible.2 rfl
    have hpath : HasPath path e := ⟨hname, findEntry_depth hvisible.2⟩
    obtain ⟨es, hes, hmem⟩ := hvisible.1
    rw [getEntries] at hes
    obtain ⟨d, hd, hes⟩ := bind_eq_ok.mp hes
    split at hes
    · cases hes
      cases hmem
    · rename_i hdir
      simp only [not_or, not_not] at hdir
      exact ⟨hpath, d.firstCluster,
        (findEntry_directory_iff h.last_ne (pathNames_child_depth hpath)).mp
          ⟨d, hd, hdir.1, hdir.2, rfl⟩,
        ((hentry hd hdir.1 hdir.2 (h.named e he) hfound).mp hvisible).2⟩
  · rintro ⟨hpath, k, hleads, hfirst⟩
    obtain ⟨d, hd, hdfound, hdir, rfl⟩ :=
      (findEntry_directory_iff h.last_ne (pathNames_child_depth hpath)).mpr hleads
    exact (hentry hd hdfound hdir (h.named e he) hfound).mpr ⟨hpath, hfirst⟩

/-- The live entries of a directory are listed and found exactly if each has a path and is the first
one with its name in the first cluster, and the first clusters of the directories on the path lead
there. Where names are unique, that is, for a directory that is not empty: each directory on the path
has its record in the first cluster of the one before, each entry has a path, and no cluster but the
first holds a live 8.3 record. -/
theorem visible_iff (h : IsDirectoryAt v path cluster chain entries) :
    ((∀ e ∈ liveEntries (chainRecords v chain) entries, Visible v path e) ↔
        ∀ e ∈ liveEntries (chainRecords v chain) entries,
          HasPath path e ∧ ∃ k, FirstLeads v (pathNames path) k ∧ FirstNamed v k e) ∧
      (UniqueInChains v →
        ((∀ e ∈ liveEntries (chainRecords v chain) entries, Visible v path e) ↔
          liveEntries (chainRecords v chain) entries = [] ∨
            (Leads (FirstSubdirectory v) (pathNames path) v.context.rootCluster cluster ∧
              (∀ e ∈ liveEntries (chainRecords v chain) entries, HasPath path e) ∧
              ∀ r ∈ laterRecords v chain, r.kind = .short → r.firstByte = deletedMark))) := by
  have hvisible := forall₂_congr fun e he => h.visible_entry (e := e) he
  refine ⟨hvisible, fun hunique => ?_⟩
  have hnodup := hunique _ _ _ _ h.leads h.toIsDirectory
  have hentries := h.decode_eq
  have hchain := h.isChain
  have hleads := h.leads
  have hshadow := h.unshadowed hunique
  rw [hvisible]
  cases hchain with
  | stop _ => exact iff_of_true (fun e he => by cases he) (.inl rfl)
  | step hdata _ =>
    have hfirst := firstNamed_iff hdata hentries hnodup
    constructor
    · intro hall
      rw [or_iff_not_imp_left]
      intro hne
      obtain ⟨e, he⟩ := List.exists_mem_of_ne_nil _ hne
      have hcluster {k : Nat} (hk : FirstLeads v (pathNames path) k) :=
        cluster_eq_of_leads hunique hleads hk.1
      obtain ⟨-, k, hk, -⟩ := hall e he
      refine ⟨hcluster hk ▸ hk.1, fun e he => (hall e he).1, hfirst.mp fun e he => ?_⟩
      obtain ⟨-, k, hk, hnamed⟩ := hall e he
      exact hcluster hk ▸ hnamed
    · rintro (hnil | ⟨hlead, hpath, hlater⟩) e he
      · rw [hnil] at he
        cases he
      · exact ⟨hpath e he, _, ⟨hlead, hshadow⟩, hfirst.mpr hlater e he⟩

/-! ## Two volumes -/

/-- A directory whose records can be decoded. -/
theorem isDirectory_of_decode {chain : List Nat} (hchain : IsClusterChain v cluster chain)
    (hdecode : (decode none (chainRecords v chain)).isSome)
    (hnamed : ∀ e ∈ liveEntries (chainRecords v chain)
      ((decode none (chainRecords v chain)).getD []), e.name ≠ []) :
    IsDirectory v cluster chain ((decode none (chainRecords v chain)).getD []) where
  isChain := hchain
  decode_eq := by
    obtain ⟨es, hes⟩ := Option.isSome_iff_exists.mp hdecode
    rw [hes]
    rfl
  named := hnamed

/-- The directories of `subVolume`. -/
theorem isDirectory_subVolume {k : Nat} (h : k = 2 ∨ k = 3) :
    IsDirectory subVolume k [k] ((decode none (chainRecords subVolume [k])).getD []) := by
  rcases h with rfl | rfl <;>
    exact isDirectory_of_decode (.step (by decide) (.stop (by decide +kernel))) (by decide +kernel)
      (by decide +kernel)

/-- The file in the directory of the root directory. -/
theorem visible_subVolume :
    Visible subVolume (literal "/sub") (fooRecord.toEntry (literal "foo.txt")) := by
  have hroot : firstEntries subVolume 2 = some [subRecord.toEntry (literal "sub")] :=
    dirEntries_eq_ok.mp dirEntries_subVolume.1
  have hsub : firstEntries subVolume 3 = some [fooRecord.toEntry (literal "foo.txt")] :=
    dirEntries_eq_ok.mp dirEntries_subVolume.2
  have hnames : pathNames (literal "/sub") = [literal "sub"] := by decide
  have hat : IsDirectoryAt subVolume (literal "/sub") 3 [3]
      ((decode none (chainRecords subVolume [3])).getD []) :=
    { isDirectory_subVolume (.inr rfl) with
      last_ne := by decide
      leads := by
        rw [hnames]
        exact ⟨3, ⟨_, _, subRecord.toEntry (literal "sub"), isDirectory_subVolume (.inl rfl),
          by decide +kernel, by decide, rfl, by decide⟩, rfl⟩ }
  have hshadow : Unshadowed subVolume [literal "sub"] := fun init last h k es x hk hes hx => by
    have happend : [] ++ [literal "sub"] = init ++ [last] := h
    obtain ⟨rfl, hlast⟩ := List.append_inj' happend rfl
    cases hlast
    cases hk
    cases hroot.symm.trans hes
    rw [List.mem_singleton.mp (List.mem_of_find?_eq_some hx)]
    decide
  have hleads : FirstLeads subVolume (pathNames (literal "/sub")) 3 := by
    rw [hnames]
    exact ⟨⟨3, ⟨_, subRecord.toEntry (literal "sub"), hroot, by decide, by decide⟩, rfl⟩, hshadow⟩
  have hlive : liveEntries (chainRecords subVolume [3])
      ((decode none (chainRecords subVolume [3])).getD []) =
        [fooRecord.toEntry (literal "foo.txt")] := by
    decide +kernel
  refine (visible_iff hat).1.mpr (fun e he => ?_) _ (hlive ▸ List.mem_singleton.mpr rfl)
  rw [hlive, List.mem_singleton] at he
  rw [he]
  exact ⟨by decide +kernel, 3, hleads, _, hsub, by decide⟩

/-- Sixteen files with a letter as name. -/
def letterRecords : List DirectoryEntry := (List.range 16).map fun k i =>
  if i.val = 0 then 0x41 + UInt8.ofNat k else if i.val < 11 then space else 0

/-- A root directory whose second cluster holds a file. -/
def twoClusters : Volume := rootVolume [0, 0, 3, 0x0FFFFFFF] [letterRecords, [fooRecord]]

/-- The file in the second cluster is not listed. -/
theorem not_visible_twoClusters :
    ¬ ∀ (v : Volume) (path : CString) (cluster : Nat) (chain : List Nat) (entries : List Entry),
      IsDirectoryAt v path cluster chain entries →
      ∀ e ∈ liveEntries (chainRecords v chain) entries, Visible v path e := by
  intro h
  have hdir := @isDirectory_of_decode twoClusters 2 [2, 3]
    (.step (by decide) (.step (by decide +kernel) (.stop (by decide +kernel))))
    (by decide +kernel) (by decide +kernel)
  obtain ⟨⟨es, hes, hmem⟩, -⟩ := h _ [] _ _ _ ⟨hdir, by simp, rfl⟩ (fooRecord.toEntry (literal "foo.txt"))
    (by decide +kernel)
  have hlist : (getEntries twoClusters []).toOption.all fun es =>
      !es.contains (fooRecord.toEntry (literal "foo.txt")) := by
    decide +kernel
  rw [hes] at hlist
  simp [Except.toOption, hmem] at hlist

end EszOs
