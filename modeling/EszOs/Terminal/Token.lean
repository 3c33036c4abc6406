import EszOs.Terminal.LineInput

/-!
# The token at the cursor (`shell/args.cpp`)

`getCurrTokenFromBuffer` goes back from the cursor to a space, and forwards from there to the next.
Index 0 stands for "no space" as well, so a space there is not seen.

* `tokenStartsAt_spec`: where the way back ends.
* `getCurrTokenFromBuffer_of_tokenAt`: what is returned where there is a token.
* `findsToken_iff`: when it is the right one.
-/

namespace EszOs

/-- `token` stands between `a` and `b` in the text, as a whole, and the cursor is in it or directly
behind it. -/
structure TokenAt (text : CString) (cursor : Nat) (a token b : CString) : Prop where
  split : text = a ++ token ++ b
  ne_nil : token ≠ []
  word : space ∉ token
  starts : ∀ c ∈ a.getLast?, c = space
  ends : ∀ c ∈ b.head?, c = space
  cursor_ge : a.length ≤ cursor
  cursor_le : cursor ≤ a.length + token.length

namespace LineInput

/-- `getCurrTokenFromBuffer` returns the token at the cursor, and nothing where there is none. -/
def FindsToken (t : LineInput) : Prop :=
  (∀ a token b, TokenAt t.text t.lineInputCursorPos a token b → t.getCurrTokenFromBuffer = token) ∧
    ((¬ ∃ a token b, TokenAt t.text t.lineInputCursorPos a token b) → t.getCurrTokenFromBuffer = [])

variable {t : LineInput}

/-! ## The loops -/

/-- Behind the space that the way back finds, there is none before the cursor. Index 0 is not looked
at. -/
theorem tokenStartsAt_spec {i : Nat} (hi : i ≤ t.lineInputCursorPos) :
    t.tokenStartsAt i ≤ i ∧
      (t.tokenStartsAt i ≠ 0 → t.tokenStartsAt i < t.lineInputCursorPos ∧
        t.lineInputBuffer (t.tokenStartsAt i) = space) ∧
      ∀ j : Nat, t.tokenStartsAt i < j → j ≤ i → j < t.lineInputCursorPos →
        t.lineInputBuffer j ≠ space := by
  induction i with
  | zero =>
    refine ⟨Nat.le_refl 0, fun h => absurd rfl h, fun j h0 hj => ?_⟩
    change 0 < j at h0
    omega
  | succ i ih =>
    rw [tokenStartsAt]
    split
    · rename_i h
      refine ⟨Nat.le_refl _, fun _ => ⟨by omega, h.1⟩, fun j hlt hle => ?_⟩
      omega
    · rename_i h
      obtain ⟨hle, hfound, hnone⟩ := ih (Nat.le_of_succ_le hi)
      refine ⟨Nat.le_succ_of_le hle, hfound, fun j hlt hj hcursor => ?_⟩
      by_cases hj' : j = i + 1
      · intro hspace
        exact h ⟨by rw [← hspace, hj']; rfl, by omega⟩
      · exact hnone j hlt (by omega) hcursor

/-- Where the way forwards starts. -/
def tokenStart (t : LineInput) : Nat :=
  let found := t.tokenStartsAt t.lineInputCursorPos
  if found ≠ 0 then found + 1 else found

theorem getElem?_text {i : Nat} (hi : i < t.lineInputLength) :
    t.text[i]? = some (t.lineInputBuffer i) := by
  unfold text
  rw [View.getElem?_read, if_pos hi, Int.zero_add]
  rfl

theorem foldl_strAddChar {s : CString} (hs : 0 ∉ s) (s' : CString) :
    s.foldl strAddChar s' = s' ++ s := by
  induction s generalizing s' with
  | nil => simp
  | cons c s ih =>
    obtain ⟨hc, hs⟩ := List.ne_and_not_mem_of_not_mem_cons hs
    rw [List.foldl_cons, strAddChar, if_neg (Ne.symm hc), ih hs, List.append_assoc]
    rfl

theorem getCurrTokenFromBuffer_eq (h0 : 0 ∉ t.text) :
    t.getCurrTokenFromBuffer = (t.text.drop t.tokenStart).takeWhile (· != space) := by
  have hdrop : t.text.drop t.tokenStart =
      buffer.read t t.tokenStart (t.lineInputLength - t.tokenStart) := by
    rw [text, View.drop_read, Int.zero_add]
  have hzero : 0 ∉ (t.text.drop t.tokenStart).takeWhile (· != space) :=
    fun h => h0 (List.mem_of_mem_drop ((List.takeWhile_prefix _).subset h))
  rw [hdrop] at hzero ⊢
  exact foldl_strAddChar hzero []

/-- The same in terms of the text. -/
theorem tokenStart_spec (hcursor : t.lineInputCursorPos ≤ t.lineInputLength) :
    ∃ found, t.tokenStart = (if found ≠ 0 then found + 1 else found) ∧
      (found ≠ 0 → found < t.lineInputCursorPos ∧ t.text[found]? = some space) ∧
      ∀ j, found < j → j < t.lineInputCursorPos → t.text[j]? ≠ some space := by
  obtain ⟨-, hfound, hnone⟩ := tokenStartsAt_spec (Nat.le_refl t.lineInputCursorPos)
  refine ⟨t.tokenStartsAt t.lineInputCursorPos, rfl, fun h => ?_, fun j hlt hj => ?_⟩
  · obtain ⟨hlt, hspace⟩ := hfound h
    exact ⟨hlt, by rw [getElem?_text (Nat.lt_of_lt_of_le hlt hcursor), hspace]⟩
  · rw [getElem?_text (Nat.lt_of_lt_of_le hj hcursor)]
    exact fun h => hnone j hlt (Nat.le_of_lt hj) hj (Option.some.inj h)

end LineInput

/-! ## The token -/

namespace TokenAt

variable {text a token b : CString} {cursor : Nat}

theorem getElem?_ne (h : TokenAt text cursor a token b) {j : Nat} (hj : a.length ≤ j)
    (hlt : j < a.length + token.length) : text[j]? ≠ some space := by
  rw [h.split, List.append_assoc, List.getElem?_append_right hj,
    List.getElem?_append_left (by omega)]
  exact fun hspace => h.word (List.mem_of_getElem? hspace)

theorem getElem?_before (h : TokenAt text cursor a token b) (ha : a ≠ []) :
    text[a.length - 1]? = some space := by
  have hpos := List.length_pos_iff.mpr ha
  rw [h.split, List.append_assoc, List.getElem?_append_left (by omega), ← List.getLast?_eq_getElem?,
    List.getLast?_eq_some_getLast ha]
  exact congrArg some (h.starts _ (List.getLast?_eq_some_getLast ha))

theorem takeWhile_drop (h : TokenAt text cursor a token b) :
    (text.drop a.length).takeWhile (· != space) = token := by
  have hword : ∀ c ∈ token, (c != space) = true := fun c hc =>
    bne_iff_ne.mpr fun heq => h.word (heq ▸ hc)
  rw [h.split, List.append_assoc, List.drop_left, List.takeWhile_append_of_pos hword]
  cases b with
  | nil => simp
  | cons c b => simp [h.ends c rfl]

end TokenAt

namespace LineInput

variable {t : LineInput} {a token b : CString}

/-- The way back ends where the token starts, unless that is behind a space at index 0. -/
theorem tokenStart_of_tokenAt (hcursor : t.lineInputCursorPos ≤ t.lineInputLength)
    (h : TokenAt t.text t.lineInputCursorPos a token b) :
    t.tokenStart = if a = [space] then 0 else a.length := by
  obtain ⟨found, hstart, hfound, hnone⟩ := tokenStart_spec hcursor
  have hge := h.cursor_ge
  have hle := h.cursor_le
  have hpos := List.length_pos_iff.mpr h.ne_nil
  -- the space that was found is not in the token
  have hbefore : found ≠ 0 → found < a.length := by
    intro h0
    obtain ⟨hlt, hspace⟩ := hfound h0
    by_contra hnot
    exact h.getElem?_ne (by omega) (by omega) hspace
  -- the space in front of the token is not passed
  have hbehind : a.length ≤ found + 1 := by
    by_contra hnot
    have hne : a ≠ [] := by
      rintro rfl
      simp at hnot
    exact hnone (a.length - 1) (by omega) (by omega) (h.getElem?_before hne)
  rw [hstart]
  by_cases ha : a = [space]
  · have hlength : a.length = 1 := by rw [ha]; rfl
    grind
  · have hlength : a.length = 1 → a = [space] := by
      intro hone
      obtain ⟨c, rfl⟩ := List.length_eq_one_iff.mp hone
      rw [h.starts c rfl]
    grind

theorem getCurrTokenFromBuffer_of_tokenAt (h0 : 0 ∉ t.text)
    (hcursor : t.lineInputCursorPos ≤ t.lineInputLength)
    (h : TokenAt t.text t.lineInputCursorPos a token b) :
    t.getCurrTokenFromBuffer = if a = [space] then [] else token := by
  rw [getCurrTokenFromBuffer_eq h0, tokenStart_of_tokenAt hcursor h]
  by_cases ha : a = [space]
  · rw [if_pos ha, if_pos ha, h.split, ha]
    simp
  · rw [if_neg ha, if_neg ha, h.takeWhile_drop]

/-- What is returned, if anything, is the token at the cursor. -/
theorem tokenAt_getCurrTokenFromBuffer (h0 : 0 ∉ t.text)
    (hcursor : t.lineInputCursorPos ≤ t.lineInputLength) (hne : t.getCurrTokenFromBuffer ≠ []) :
    ∃ a b, TokenAt t.text t.lineInputCursorPos a t.getCurrTokenFromBuffer b := by
  obtain ⟨found, hstart, hfound, hnone⟩ := tokenStart_spec hcursor
  have hlength := t.length_text
  have hle : t.tokenStart ≤ t.lineInputCursorPos := by grind
  let rest := t.text.drop t.tokenStart
  have heq : t.getCurrTokenFromBuffer = rest.takeWhile (· != space) := getCurrTokenFromBuffer_eq h0
  have hrest : rest.takeWhile (· != space) ++ rest.dropWhile (· != space) = rest :=
    List.takeWhile_append_dropWhile
  have hends : ∀ c ∈ (rest.dropWhile (· != space)).head?, c = space := by
    intro c hc
    have hnot := List.head?_dropWhile_not (· != space) rest
    rw [Option.mem_def.mp hc] at hnot
    simpa using hnot
  have htake : (t.text.take t.tokenStart).length = t.tokenStart :=
    List.length_take_of_le (by omega)
  refine ⟨t.text.take t.tokenStart, rest.dropWhile (· != space), ?_, hne, ?_, ?_, hends, ?_, ?_⟩
  · rw [heq, List.append_assoc, hrest, List.take_append_drop]
  · rw [heq]
    intro hmem
    simpa using List.mem_takeWhile_imp hmem
  · intro c hc
    rw [List.getLast?_eq_getElem?, htake, List.getElem?_take] at hc
    grind
  · rw [htake]
    exact hle
  · -- up to the cursor there is no space behind the start
    rw [htake]
    by_contra hlt
    have hpos := List.length_pos_iff.mpr hne
    have hlengths := congrArg List.length hrest
    rw [List.length_append, ← heq, List.length_drop, hlength] at hlengths
    obtain ⟨c, b, hb⟩ := List.exists_cons_of_length_pos (l := rest.dropWhile (· != space)) (by omega)
    have hspace : t.text[t.tokenStart + t.getCurrTokenFromBuffer.length]? = some space := by
      rw [← List.getElem?_drop]
      show rest[_]? = _
      rw [← hrest, ← heq, List.getElem?_append_right (Nat.le_refl _), Nat.sub_self, hb]
      exact congrArg some (hends c (by rw [hb]; rfl))
    exact hnone _ (by grind) (by omega) hspace

/-- `getCurrTokenFromBuffer` is right exactly if the token at the cursor, where there is one, is not
the one behind a space at index 0. -/
theorem findsToken_iff (h0 : 0 ∉ t.text) (hcursor : t.lineInputCursorPos ≤ t.lineInputLength) :
    t.FindsToken ↔
      ∀ a token b, TokenAt t.text t.lineInputCursorPos a token b → a ≠ [space] := by
  constructor
  · rintro ⟨hfinds, -⟩ a token b h ha
    have heq := getCurrTokenFromBuffer_of_tokenAt h0 hcursor h
    rw [if_pos ha, hfinds a token b h] at heq
    exact h.ne_nil heq
  · intro hnot
    refine ⟨fun a token b h => ?_, fun hnone => ?_⟩
    · rw [getCurrTokenFromBuffer_of_tokenAt h0 hcursor h, if_neg (hnot a token b h)]
    · by_contra hne
      obtain ⟨a, b, h⟩ := tokenAt_getCurrTokenFromBuffer h0 hcursor hne
      exact hnone ⟨a, _, b, h⟩

/-- The line with the cursor at a position. -/
def ofText (text : CString) (cursor : Nat) : LineInput :=
  { (⟨0, fun _ => 0, 0, []⟩ : LineInput).recallLine text with lineInputCursorPos := cursor }

/-- The token behind two spaces. -/
theorem findsToken_ls : (ofText (literal "cd  ls") 4).FindsToken := by
  refine (findsToken_iff (by decide) (by decide)).mpr ?_
  rintro a token b h rfl
  have hhead : some 0x63 = some space := congrArg List.head? h.split
  exact absurd hhead (by decide)

/-- The token of the line " ls" is not found. -/
theorem not_findsToken_space : ¬ (ofText (literal " ls") 2).FindsToken := by
  rintro ⟨hfinds, -⟩
  have h : TokenAt (ofText (literal " ls") 2).text 2 [space] (literal "ls") [] := by
    refine ⟨by decide, by decide, by decide, ?_, ?_, by decide, by decide⟩ <;> simp
  exact absurd (hfinds _ _ _ h) (by decide)

end LineInput

end EszOs
