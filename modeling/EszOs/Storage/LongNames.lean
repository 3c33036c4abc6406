import Mathlib.Data.List.Forall2
import EszOs.Storage.DirectoryContents

/-!
# Long names

FAT stores a long name in pieces of 13 UTF-16 characters, the last piece first. The reader appends
the pieces as it comes to them.

* `longNamePart_of_piece`: from a record the reader gets the characters of its piece, whatever
  terminator and padding are behind them.
* `getEntriesInDir_longName`: a long name is read back exactly if its pieces spell it in either
  order, no characters of deleted records are before it, and no name in the cluster is too long.
-/

namespace EszOs

/-! ## The layout -/

/-- The number of characters in a long-name record. -/
def pieceLength : Nat := 13

/-- The number of pieces of a name. -/
def pieceCount (name : CString) : Nat := (name.length + (pieceLength - 1)) / pieceLength

def piece (name : CString) (k : Nat) : CString := (name.drop (pieceLength * k)).take pieceLength

/-- The pieces of a name in their order in the name. -/
def pieces (name : CString) : List CString := (List.range (pieceCount name)).map (piece name)

/-- The terminator and the padding behind a piece that does not fill its record. -/
def pieceEnd (piece : CString) : List (UInt8 × UInt8) :=
  if piece.length < pieceLength then
    (0, 0) :: List.replicate (pieceLength - 1 - piece.length) (0xFF, 0xFF)
  else []

/-- The UTF-16 characters of a record of a piece, as low and high bytes. -/
def pieceUnits (piece : CString) : List (UInt8 × UInt8) := piece.map (·, 0) ++ pieceEnd piece

/-- The sequence number of piece `k` of `n`; the last piece has a mark. -/
def sequenceNumber (n k : Nat) : UInt8 :=
  UInt8.ofNat (k + 1) ||| if k + 1 = n then 0x40 else 0

/-- A record holds piece `k` of a name. -/
structure HoldsPiece (name : CString) (k : Nat) (r : DirectoryEntry) : Prop where
  sequence : r.firstByte = sequenceNumber (pieceCount name) k
  isLFN : r.isLFN = true
  units : r.nameChars1 ++ r.nameChars2 ++ r.nameChars3 = pieceUnits (piece name k)

/-- The records hold the pieces of a name, the last one first. -/
def IsLayout (name : CString) (records : List DirectoryEntry) : Prop :=
  List.Forall₂ (HoldsPiece name) (List.range (pieceCount name)).reverse records

/-- A long file name: ASCII characters, at most 255. -/
structure IsLongName (name : CString) : Prop where
  length_pos : 0 < name.length
  length_lt : name.length < nameBytes
  ascii : ∀ c ∈ name, c ≠ 0 ∧ c < 128

/-! ## One piece -/

/-- The terminator and the padding end a text. -/
def endsText (u : UInt8 × UInt8) : Bool := u == (0, 0) || u == (0xFF, 0xFF)

/-- Characters, and behind them only what ends a text. -/
structure IsText (units : List (UInt8 × UInt8)) : Prop where
  ended : units.Pairwise fun u w => endsText u = true → endsText w = true
  nonzero : ∀ u ∈ units, endsText u = false → u.1 ≠ 0

theorem IsText.append {units units' : List (UInt8 × UInt8)} (h : IsText (units ++ units')) :
    IsText units ∧ IsText units' := by
  obtain ⟨hleft, hright, -⟩ := List.pairwise_append.mp h.ended
  exact ⟨⟨hleft, fun u hu => h.nonzero u (List.mem_append_left _ hu)⟩,
    ⟨hright, fun u hu => h.nonzero u (List.mem_append_right _ hu)⟩⟩

/-- A text is read up to its end. -/
theorem utf16TextToAscii_of_isText {units : List (UInt8 × UInt8)} (h : IsText units) :
    utf16TextToAscii units = (units.filter fun u => !endsText u).map Prod.fst := by
  induction units with
  | nil => rfl
  | cons u units ih =>
    obtain ⟨low, high⟩ := u
    obtain ⟨hhead, htail⟩ := List.pairwise_cons.mp h.ended
    have hrest : IsText units := ⟨htail, fun w hw => h.nonzero w (List.mem_cons_of_mem _ hw)⟩
    cases hends : endsText (low, high) with
    | true =>
      have hnil : units.filter (fun u => !endsText u) = [] :=
        List.filter_eq_nil_iff.mpr fun w hw => by simp [hhead w hw hends]
      rw [List.filter_cons_of_neg (by simp [hends]), hnil]
      have hstop : (low = 0 ∧ high = 0) ∨ (low = 0xFF ∧ high = 0xFF) := by
        simpa [endsText] using hends
      rw [utf16TextToAscii, utf16Loop, if_pos hstop]
      rfl
    | false =>
      have hstop : ¬ ((low = 0 ∧ high = 0) ∨ (low = 0xFF ∧ high = 0xFF)) := by
        simpa [endsText] using hends
      have hlow : low ≠ 0 := h.nonzero _ List.mem_cons_self hends
      rw [List.filter_cons_of_pos (by simp [hends]), List.map_cons, ← ih hrest, utf16TextToAscii,
        utf16Loop, if_neg hstop, cstring, List.takeWhile_cons_of_pos (by simpa using hlow)]
      rfl

theorem endsText_char {c : UInt8} (h : c ≠ 0) : endsText (c, 0) = false := by
  simp [endsText, h]

theorem endsText_pieceEnd {piece : CString} : ∀ u ∈ pieceEnd piece, endsText u = true := by
  intro u hu
  rw [pieceEnd] at hu
  split at hu
  · rcases List.mem_cons.mp hu with rfl | hu
    · rfl
    · rw [List.eq_of_mem_replicate hu]
      rfl
  · cases hu

theorem endsText_pieceUnits {piece : CString} (h : ∀ c ∈ piece, c ≠ 0) :
    ∀ u ∈ piece.map (·, (0 : UInt8)), endsText u = false := by
  intro u hu
  obtain ⟨c, hc, rfl⟩ := List.mem_map.mp hu
  exact endsText_char (h c hc)

theorem isText_pieceUnits {piece : CString} (h : ∀ c ∈ piece, c ≠ 0) :
    IsText (pieceUnits piece) := by
  refine ⟨List.pairwise_append.mpr ⟨?_, ?_, ?_⟩, ?_⟩
  · refine List.pairwise_of_forall_mem_list fun u hu w _ hends => ?_
    rw [endsText_pieceUnits h u hu] at hends
    cases hends
  · exact List.pairwise_of_forall_mem_list fun u _ w hw _ => endsText_pieceEnd w hw
  · exact fun u _ w hw _ => endsText_pieceEnd w hw
  · intro u hu hends
    rcases List.mem_append.mp hu with hu | hu
    · obtain ⟨c, hc, rfl⟩ := List.mem_map.mp hu
      exact h c hc
    · rw [endsText_pieceEnd u hu] at hends
      cases hends

theorem filter_pieceUnits {piece : CString} (h : ∀ c ∈ piece, c ≠ 0) :
    ((pieceUnits piece).filter fun u => !endsText u).map Prod.fst = piece := by
  have hchars : (piece.map (·, (0 : UInt8))).filter (fun u => !endsText u) = piece.map (·, 0) :=
    List.filter_eq_self.mpr fun u hu => by simp [endsText_pieceUnits h u hu]
  have hend : (pieceEnd piece).filter (fun u => !endsText u) = [] :=
    List.filter_eq_nil_iff.mpr fun u hu => by simp [endsText_pieceEnd u hu]
  rw [pieceUnits, List.filter_append, hchars, hend, List.append_nil, List.map_map]
  exact List.map_id piece

/-- A record of a piece is read as the piece. -/
theorem longNamePart_of_piece {r : DirectoryEntry} {piece : CString} (hpiece : ∀ c ∈ piece, c ≠ 0)
    (hunits : r.nameChars1 ++ r.nameChars2 ++ r.nameChars3 = pieceUnits piece) :
    r.longNamePart = piece := by
  have htext := isText_pieceUnits hpiece
  rw [← hunits] at htext
  obtain ⟨h12, h3⟩ := htext.append
  obtain ⟨h1, h2⟩ := h12.append
  rw [DirectoryEntry.longNamePart, utf16TextToAscii_of_isText h1, utf16TextToAscii_of_isText h2,
    utf16TextToAscii_of_isText h3, ← List.map_append, ← List.map_append, ← List.filter_append,
    ← List.filter_append, hunits, filter_pieceUnits hpiece]

/-! ## All pieces -/

theorem IsLongName.piece_ne_zero {name : CString} (h : IsLongName name) (k : Nat) :
    ∀ c ∈ piece name k, c ≠ 0 := fun c hc =>
  (h.ascii c (List.mem_of_mem_drop (List.mem_of_mem_take hc))).1

/-- The pieces are read in their order on the disk, which is not that in the name. -/
theorem IsLayout.longText {name : CString} {records : List DirectoryEntry} (hname : IsLongName name)
    (h : IsLayout name records) : longText records = (pieces name).reverse.flatten := by
  have hparts : List.Forall₂ (fun k r => DirectoryEntry.longNamePart r = piece name k)
      (List.range (pieceCount name)).reverse records :=
    h.imp fun k r hr => longNamePart_of_piece (hname.piece_ne_zero k) hr.units
  rw [pieces, ← List.map_reverse]
  clear h
  generalize (List.range (pieceCount name)).reverse = ks at hparts
  induction hparts with
  | nil => rfl
  | cons hpart _ ih => rw [longText_cons, List.map_cons, List.flatten_cons, hpart, ih]

theorem IsLayout.ne_nil {name : CString} {records : List DirectoryEntry} (hname : IsLongName name)
    (h : IsLayout name records) : records ≠ [] := by
  rintro rfl
  have hlength := h.length_eq
  have hpos := hname.length_pos
  rw [List.length_reverse, List.length_range, List.length_nil, pieceCount, pieceLength] at hlength
  omega

/-- The pieces are cut from the name. -/
theorem pieces_flatten (name : CString) : (pieces name).flatten = name := by
  have htake : ∀ n, ((List.range n).map (piece name)).flatten = name.take (pieceLength * n) := by
    intro n
    induction n with
    | zero => rfl
    | succ n ih =>
      rw [List.range_succ, List.map_append, List.flatten_append, ih, Nat.mul_succ, List.take_add,
        List.map_singleton, List.flatten_singleton, piece]
  rw [pieces, htake]
  refine List.take_of_length_le ?_
  rw [pieceCount, pieceLength]
  omega

/-! ## Among other records -/

/-- The long-name records that are collected when records have been read, from `stray` on. -/
def strayAfter : List DirectoryEntry → List DirectoryEntry → List DirectoryEntry
  | stray, [] => stray
  | stray, r :: records =>
    match r.kind with
    | .skipped => strayAfter stray records
    | .long => strayAfter (stray ++ [r]) records
    | .short => strayAfter [] records

/-- Records are read one after the other. -/
theorem decode_append (stray records records' : List DirectoryEntry) :
    decode (collected stray) (records ++ records') =
      (decode (collected stray) records).bind fun es =>
        (decode (collected (strayAfter stray records)) records').map (es ++ ·) := by
  induction records generalizing stray with
  | nil =>
    show decode _ records' = (decode (collected stray) records').map ([] ++ ·)
    simp
  | cons r records ih =>
    rw [List.cons_append, strayAfter]
    cases hkind : r.kind with
    | skipped =>
      rw [decode_skipped hkind, decode_skipped hkind]
      exact ih stray
    | long =>
      rw [decode_long hkind, decode_long hkind]
      split
      · exact ih (stray ++ [r])
      · rfl
    | short =>
      rw [decode_short hkind, decode_short hkind]
      have hrest := ih []
      rw [show collected [] = none from rfl] at hrest
      rw [hrest]
      cases decode none records with
      | none => rfl
      | some es =>
        simp only [Option.bind_some, Option.map_some, Option.map_map]
        rfl

/-- The records of a live entry behind others. -/
theorem decode_live_of_fits {stray records : List DirectoryEntry} {e : LiveEntry}
    {es : List Entry} (hlong : e.longRecords ≠ [])
    (h : decode (collected stray) (e.longRecords ++ [e.record] ++ records) = some es) :
    es[0]? = some (e.record.toEntry (longText stray ++ longText e.longRecords)) := by
  rw [List.append_assoc, decode_longRecords fun r hr => (e.long r hr).kind] at h
  split at h
  · rw [List.singleton_append, decode_short e.short, Option.map_eq_some_iff] at h
    obtain ⟨es', -, rfl⟩ := h
    rw [List.getElem?_cons_zero, collected, if_neg (by simp [hlong]), longText_append]
    rfl
  · cases h

/-- The entry of a live entry behind the items `before` is put out with a name. -/
def ReadsBack (clusterSizeInBytes : Nat) (entries : Nat → DirectoryEntry) (before : List DirItem)
    (e : LiveEntry) (name : CString) : Prop :=
  ∃ l, getEntriesInDir clusterSizeInBytes entries (clearedEntries clusterSizeInBytes) 0 = .ok l ∧
    l.entries[(before.flatMap DirItem.records).countP fun r => r.kind = .short]? =
      some (e.record.toEntry name)

/-- A long name is read back exactly if no name in the cluster is too long, the deleted long-name
records since the last 8.3 record hold no characters, and the pieces spell the name in descending
order, too. -/
theorem getEntriesInDir_longName {clusterSizeInBytes : Nat} {entries : Nat → DirectoryEntry}
    {name : CString} (hname : IsLongName name) {before after : List DirItem} {e : LiveEntry}
    (hlayout : IsLayout name e.longRecords)
    (h : IsContents clusterSizeInBytes entries (before ++ .live e :: after)) :
    ReadsBack clusterSizeInBytes entries before e name ↔
      NamesFit (usedRecords clusterSizeInBytes entries) ∧
        longText (strayAfter [] (before.flatMap DirItem.records)) = [] ∧
        (pieces name).reverse.flatten = name := by
  have hlength : (pieces name).reverse.flatten.length = name.length := by
    rw [((List.reverse_perm (pieces name)).flatten).length_eq, pieces_flatten]
  have hspell : ∀ text : CString, text ++ (pieces name).reverse.flatten = name ↔
      text = [] ∧ (pieces name).reverse.flatten = name := by
    intro text
    constructor
    · intro htext
      have := congrArg List.length htext
      rw [List.length_append, hlength] at this
      have hnil : text = [] := List.eq_nil_of_length_eq_zero (by omega)
      subst hnil
      exact ⟨rfl, htext⟩
    · rintro ⟨rfl, hpieces⟩
      exact hpieces
  have hread : ∀ es, decode none (usedRecords clusterSizeInBytes entries) = some es →
      (es[(before.flatMap DirItem.records).countP fun r => r.kind = .short]? =
          some (e.record.toEntry name) ↔
        longText (strayAfter [] (before.flatMap DirItem.records)) = [] ∧
          (pieces name).reverse.flatten = name) := by
    intro es hes
    rw [h.usedRecords, List.flatMap_append, List.flatMap_cons] at hes
    obtain ⟨es₁, hes₁, hes⟩ := Option.bind_eq_some_iff.mp
      ((decode_append [] (before.flatMap DirItem.records) _).symm.trans hes)
    obtain ⟨es₂, hes₂, rfl⟩ := Option.map_eq_some_iff.mp hes
    have hfirst := decode_live_of_fits (hlayout.ne_nil hname) hes₂
    rw [← decode_length hes₁, List.getElem?_append_right (Nat.le_refl _), Nat.sub_self, hfirst,
      hlayout.longText hname, ← hspell]
    exact ⟨fun heq => congrArg Entry.name (Option.some.inj heq), fun heq => by rw [heq]⟩
  rw [ReadsBack, @getEntriesInDir_ok_iff _ _ fun es =>
    es[(before.flatMap DirItem.records).countP fun r => r.kind = .short]? = some _, namesFit_iff]
  constructor
  · rintro ⟨es, hes, hget⟩
    exact ⟨by rw [hes]; rfl, (hread es hes).mp hget⟩
  · rintro ⟨hfits, hq⟩
    obtain ⟨es, hes⟩ := Option.isSome_iff_exists.mp hfits
    exact ⟨es, hes, (hread es hes).mpr hq⟩

/-! ## Two names -/

/-- A long-name record with a sequence number and characters. -/
def longRecord (sequence : UInt8) (units : List (UInt8 × UInt8)) : DirectoryEntry := fun i =>
  let unitByte (n : Nat) : UInt8 :=
    if n % 2 = 0 then (units.getD (n / 2) (0, 0)).1 else (units.getD (n / 2) (0, 0)).2
  if i.val = 0 then sequence
  else if i.val < 11 then unitByte (i.val - 1)
  else if i.val = 11 then 0x0F
  else if 14 ≤ i.val ∧ i.val < 26 then unitByte (i.val - 4)
  else if 28 ≤ i.val then unitByte (i.val - 6)
  else 0

/-- The records of a name of at most two pieces. -/
def longRecords (name : CString) : List DirectoryEntry :=
  if name.length ≤ pieceLength then [longRecord 0x41 (pieceUnits (piece name 0))]
  else [longRecord 0x42 (pieceUnits (piece name 1)), longRecord 1 (pieceUnits (piece name 0))]

def notes : LiveEntry where
  record := fooRecord
  longRecords := longRecords (literal "Notes (2).md")
  used := fooRecord_used
  not_deleted := fooRecord_not_deleted
  short := fooRecord_short
  long := forall_mem_of_all (by decide +kernel)
  fits := by decide +kernel

/-- A name of one piece is read back. -/
theorem getEntriesInDir_notes :
    ReadsBack 96 (recordArray (notes.longRecords ++ [notes.record])) [] notes
      (literal "Notes (2).md") := by
  have hname : IsLongName (literal "Notes (2).md") :=
    ⟨by decide, by decide, forall_mem_of_all (by decide)⟩
  have hlayout : IsLayout (literal "Notes (2).md") notes.longRecords :=
    .cons ⟨by decide, by decide, by decide⟩ .nil
  have hcontents : IsContents 96 (recordArray (notes.longRecords ++ [notes.record]))
      ([] ++ .live notes :: []) :=
    ⟨[fun _ => 0], rfl, fun r hr => by cases hr; rfl⟩
  refine (getEntriesInDir_longName hname hlayout hcontents).mpr ⟨?_, rfl, by decide⟩
  rw [namesFit_iff]
  decide +kernel

def alphabet : LiveEntry where
  record := fooRecord
  longRecords := longRecords (literal "abcdefghijklmn")
  used := fooRecord_used
  not_deleted := fooRecord_not_deleted
  short := fooRecord_short
  long := forall_mem_of_all (by decide +kernel)
  fits := by decide +kernel

/-- A name of fourteen characters is read with the last one in front. -/
theorem getEntriesInDir_alphabet :
    ¬ ∀ (clusterSizeInBytes : Nat) (entries : Nat → DirectoryEntry) (name : CString)
      (before after : List DirItem) (e : LiveEntry), IsLongName name →
      IsLayout name e.longRecords →
      IsContents clusterSizeInBytes entries (before ++ .live e :: after) →
      ReadsBack clusterSizeInBytes entries before e name := by
  intro h
  have hname : IsLongName (literal "abcdefghijklmn") :=
    ⟨by decide, by decide, forall_mem_of_all (by decide)⟩
  have hlayout : IsLayout (literal "abcdefghijklmn") alphabet.longRecords :=
    .cons ⟨by decide, by decide, by decide⟩ (.cons ⟨by decide, by decide, by decide⟩ .nil)
  have hcontents : IsContents 128 (recordArray (alphabet.longRecords ++ [alphabet.record]))
      ([] ++ .live alphabet :: []) :=
    ⟨[fun _ => 0], rfl, fun r hr => by cases hr; rfl⟩
  obtain ⟨l, hl, hget⟩ := h 128 _ _ [] [] alphabet hname hlayout hcontents
  have hread : ((getEntriesInDir 128 (recordArray (alphabet.longRecords ++ [alphabet.record]))
      (clearedEntries 128) 0).map fun l => l.entries.map Entry.name).toOption =
        some [literal "nabcdefghijklm"] := by
    decide +kernel
  rw [hl] at hread
  have hnames : l.entries.map Entry.name = [literal "nabcdefghijklm"] := Option.some.inj hread
  have hfirst : (l.entries.map Entry.name)[0]? = some (literal "abcdefghijklmn") := by
    rw [List.getElem?_map]
    exact congrArg (Option.map Entry.name) hget
  rw [hnames] at hfirst
  exact absurd hfirst (by decide)

end EszOs
