import EszOs.Config
import EszOs.Lib.Runs
import EszOs.Types.String

/-!
# The working directory (`storage/filesystem/filesystem.cpp`)

`cd` copies an absolute path as it is and appends a section with a slash for a relative path of one
section. It never looks at the disk.

* `cd_startsAndEnds_iff`: the path ends with a slash in every state of a run exactly if each absolute
  path that is given ends with one.
* `cd_length_iff`: the path fits `currentPath` exactly if each section that is appended still fits.
-/

namespace EszOs

/-! ## Definitions -/

def isAbsolutePath (path : CString) : Bool := path.head? == some slash

/-- `filesystem_change_directory`: the new `currentPath`; `none` if a path has more sections than
`pathSections` has entries, so that `str_split` stores behind the array. -/
def filesystemChangeDirectory (currentPath path : CString) : Option CString :=
  if path = [] then some [slash]
  else if isAbsolutePath path then some path
  else
    let pathSections := strSplit path slash
    if pathSections.length > maxPathDepth then none
    else match pathSections with
      | [section₀] => some (strAdd currentPath (section₀ ++ [slash]))
      | _ => some currentPath

/-- `currentPath` after `init_filesystem`. -/
def rootPath : CString := [slash]

/-- `currentPath` before, between and after the calls. -/
abbrev cdStates (paths : List CString) : List CString :=
  Runs.states filesystemChangeDirectory rootPath paths

/-- The calls that return: `currentPath` before and the argument. -/
abbrev cdCalls (paths : List CString) : List (CString × CString) :=
  Runs.calls filesystemChangeDirectory rootPath paths

/-! ## One call -/

/-- A relative path of one section. -/
def OneSection (path : CString) : Prop :=
  path ≠ [] ∧ isAbsolutePath path = false ∧ (strSplit path slash).length = 1

instance (path : CString) : Decidable (OneSection path) :=
  inferInstanceAs (Decidable (path ≠ [] ∧ _ ∧ _))

/-- What `cd` can do. -/
theorem filesystemChangeDirectory_cases {p path q : CString}
    (h : filesystemChangeDirectory p path = some q) :
    (path = [] ∧ q = [slash]) ∨ (isAbsolutePath path = true ∧ q = path) ∨
      (OneSection path ∧ q = p ++ (path ++ [slash])) ∨
      (path ≠ [] ∧ isAbsolutePath path = false ∧ ¬ OneSection path ∧ q = p) := by
  unfold filesystemChangeDirectory at h
  by_cases hnil : path = []
  · rw [if_pos hnil] at h
    exact .inl ⟨hnil, (Option.some.inj h).symm⟩
  · rw [if_neg hnil] at h
    by_cases habs : isAbsolutePath path = true
    · rw [if_pos habs] at h
      exact .inr (.inl ⟨habs, (Option.some.inj h).symm⟩)
    · rw [if_neg habs] at h
      have hrel := Bool.eq_false_iff.mpr habs
      simp only at h
      split at h
      · cases h
      · split at h
        · rename_i s hs
          have hsec : OneSection path := ⟨hnil, hrel, by rw [hs]; rfl⟩
          rw [strSplit_eq_singleton hs] at h
          exact .inr (.inr (.inl ⟨hsec, (Option.some.inj h).symm⟩))
        · rename_i hs
          have hsec : ¬ OneSection path := fun ho => by
            obtain ⟨s, hs'⟩ := List.length_eq_one_iff.mp ho.2.2
            exact hs s hs'
          exact .inr (.inr (.inr ⟨hnil, hrel, hsec, (Option.some.inj h).symm⟩))

/-! ## The slashes -/

/-- The convention that `ls` and `read` rely on. -/
def StartsAndEnds (p : CString) : Prop := p.head? = some slash ∧ p.getLast? = some slash

theorem startsAndEnds_root : StartsAndEnds rootPath := ⟨rfl, rfl⟩

theorem startsAndEnds_append {p s : CString} (h : StartsAndEnds p) :
    StartsAndEnds (p ++ (s ++ [slash])) := by
  refine ⟨?_, by rw [← List.append_assoc, List.getLast?_concat]⟩
  rw [List.head?_append, h.1]
  rfl

/-- In every state of every run the path starts and ends with a slash exactly if every absolute path
that was given ends with one. -/
theorem cd_startsAndEnds_iff (paths : List CString) :
    (∀ p ∈ cdStates paths, StartsAndEnds p) ↔
      ∀ c ∈ cdCalls paths, isAbsolutePath c.2 = true → c.2.getLast? = some slash := by
  refine Runs.forall_states_iff (C := fun _ path =>
    isAbsolutePath path = true → path.getLast? = some slash) (fun p path _ q hp h => ?_)
    startsAndEnds_root
  rcases filesystemChangeDirectory_cases h with ⟨rfl, rfl⟩ | ⟨habs, rfl⟩ | ⟨hsec, rfl⟩ |
    ⟨-, hrel, -, rfl⟩
  · exact iff_of_true startsAndEnds_root fun habs => by cases habs
  · have hhead : q.head? = some slash := by simpa [isAbsolutePath] using habs
    exact ⟨fun hq _ => hq.2, fun hlast => ⟨hhead, hlast habs⟩⟩
  · exact iff_of_true (startsAndEnds_append hp) fun habs => by rw [hsec.2.1] at habs; cases habs
  · exact iff_of_true hp fun habs => by rw [hrel] at habs; cases habs

/-- After `cd /a` the path does not end with a slash. -/
theorem cd_absolute_noSlash : ¬ ∀ p ∈ cdStates [literal "/a"], StartsAndEnds p := by
  intro h
  have ha := h (literal "/a") (by decide)
  exact absurd ha.2 (by decide)

/-! ## The length -/

/-- With arguments from the terminal, in every state of every run the path fits `currentPath`
exactly if every section that was appended still fitted. -/
theorem cd_length_iff {paths : List CString}
    (hshort : ∀ path ∈ paths, path.length < terminalBufferSize) :
    (∀ p ∈ cdStates paths, p.length ≤ maxPathLength) ↔
      ∀ c ∈ cdCalls paths, OneSection c.2 → c.1.length + c.2.length + 1 ≤ maxPathLength := by
  refine Runs.forall_states_iff (P := fun p : CString => p.length ≤ maxPathLength)
    (C := fun p path => OneSection path → p.length + path.length + 1 ≤ maxPathLength)
    (fun p path hmem q hp h => ?_) (by decide)
  have hlen : path.length ≤ maxPathLength :=
    Nat.le_trans (Nat.le_of_lt (hshort path hmem)) (by decide)
  rcases filesystemChangeDirectory_cases h with ⟨rfl, rfl⟩ | ⟨habs, rfl⟩ | ⟨hsec, rfl⟩ |
    ⟨-, -, hsec, rfl⟩
  · exact iff_of_true (by decide) fun hsec => absurd rfl hsec.1
  · exact iff_of_true hlen fun hsec => by rw [hsec.2.1] at habs; cases habs
  · simp only [List.length_append, List.length_singleton]
    exact ⟨fun hq _ => by omega, fun hC => by have := hC hsec; omega⟩
  · exact iff_of_true hp fun h => absurd h hsec

/-- `cd a` and `cd b` from the root. -/
theorem cd_length_ab :
    (∀ p ∈ cdStates [literal "a", literal "b"], p.length ≤ maxPathLength) ↔
      ∀ c ∈ cdCalls [literal "a", literal "b"],
        OneSection c.2 → c.1.length + c.2.length + 1 ≤ maxPathLength :=
  cd_length_iff (by decide)

/-- After sixteen times `cd` into a directory with a name of 255 characters, the path is longer than
`currentPath`. -/
theorem cd_length_exceeds :
    ¬ ∀ p ∈ cdStates (List.replicate 16 (List.replicate 255 0x61)), p.length ≤ maxPathLength := by
  decide +kernel

end EszOs
