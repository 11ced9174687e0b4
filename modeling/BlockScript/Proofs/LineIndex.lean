import BlockScript.Proofs.Token.Partition
import Mathlib.Data.List.DropRight

/-!
# Locations by counting

What the line index says of an offset can be told by counting from the start of the source: line
feeds among the bytes in front of the offset, and characters behind the last of them
(`Location.Counted`).  `Location.ofOffset_counted` proves it for every source and offset, with what
follows for the order of locations, and that the search always comes to a line of the source.

The binary search divides the line starts into those up to the offset and those behind it
(`DividesAt`).  A text up to the offset has the former and the text behind has the latter, so the
line starts divide just there.  The position that scanning keeps counts in the same way
(`Position.after_start`), so it is located where it is (`LineIndex.locate_boundary`).
-/

namespace BlockScript

/-! ## Binary search -/

/-- The first `k` of the numbers are at most `n`, and the others are larger. -/
structure DividesAt (xs : Array Nat) (n k : Nat) : Prop where
  le_size : k ≤ xs.size
  below : ∀ (i : Nat) (h : i < xs.size), i < k → xs[i] ≤ n
  above : ∀ (i : Nat) (h : i < xs.size), k ≤ i → n < xs[i]

namespace Searched

/-- How many of the numbers are at most the one searched for. -/
def rank : Searched → Nat
  | .found index => index + 1
  | .missing next => next

theorem last_eq (s : Searched) : s.last = s.rank - 1 := by
  cases s with
  | _ => rfl

/-- A search divides increasing numbers. -/
theorem between_divides {xs : Array Nat} {n : Nat} (hxs : xs.toList.Pairwise (· < ·)) {lo hi : Nat}
    {h : hi ≤ xs.size} (hle : lo ≤ hi)
    (hbelow : ∀ (i : Nat) (h : i < xs.size), i < lo → xs[i] ≤ n)
    (habove : ∀ (i : Nat) (h : i < xs.size), hi ≤ i → n < xs[i]) :
    DividesAt xs n (Searched.between xs n lo hi h).rank := by
  have hmono : ∀ (i j : Nat) (hi : i < xs.size) (hj : j < xs.size), i < j → xs[i] < xs[j] := by
    intro i j hi hj hij
    have := List.pairwise_iff_getElem.1 hxs i j (by simpa using hi) (by simpa using hj) hij
    simpa using this
  fun_induction Searched.between xs n lo hi h with
  | case1 lo hi h hlt mid hmid heq =>
      refine ⟨by simp only [rank]; omega, ?_, ?_⟩
      · intro i hi hik
        rcases Nat.lt_or_eq_of_le (Nat.le_of_lt_succ hik) with him | rfl
        · exact Nat.le_of_lt (heq ▸ hmono i mid hi (by omega) him)
        · exact Nat.le_of_eq heq
      · intro i hi hik
        exact heq ▸ hmono mid i (by omega) hi hik
  | case2 lo hi h hlt mid hmid hne hless ih =>
      refine ih (by omega) ?_ habove
      intro i hi him
      rcases Nat.lt_or_eq_of_le (Nat.le_of_lt_succ him) with him | rfl
      · exact Nat.le_of_lt (Nat.lt_trans (hmono i mid hi (by omega) him) hless)
      · exact Nat.le_of_lt hless
  | case3 lo hi h hlt mid hmid hne hless ih =>
      have hmore : n < xs[mid] := by omega
      refine ih (by omega) hbelow ?_
      intro i hi him
      rcases Nat.lt_or_eq_of_le him with him | rfl
      · exact Nat.lt_trans hmore (hmono mid i (by omega) hi him)
      · exact hmore
  | case4 lo hi h hlt =>
      obtain rfl : lo = hi := by omega
      exact ⟨h, hbelow, habove⟩

end Searched

/-- Numbers divide behind those that are at most `n`, if the others are larger. -/
theorem DividesAt.eq_size {xs as : Array Nat} {bs : List Nat} {n k : Nat} (h : DividesAt xs n k)
    (hxs : xs.toList = as.toList ++ bs) (has : ∀ a ∈ as, a ≤ n) (hbs : ∀ b ∈ bs, n < b) :
    k = as.size := by
  obtain rfl : xs = as ++ bs.toArray := Array.toList_inj.1 (by simpa using hxs)
  obtain ⟨hle, hbelow, habove⟩ := h
  have hsize : (as ++ bs.toArray).size = as.size + bs.toArray.size := Array.size_append
  rcases Nat.lt_trichotomy k as.size with hlt | heq | hgt
  · have hlarge := habove k (by omega) (Nat.le_refl k)
    rw [Array.getElem_append_left hlt] at hlarge
    have := has _ (Array.getElem_mem hlt)
    omega
  · exact heq
  · have hsmall := hbelow as.size (by omega) hgt
    rw [Array.getElem_append_right (Nat.le_refl _)] at hsmall
    have hfirst : as.size - as.size < bs.toArray.size := by omega
    have := hbs _ (List.mem_toArray.1 (Array.getElem_mem hfirst))
    omega

/-! ## Line starts -/

/-- The characters behind the last line feed of a text. -/
def lastLine (text : List Char) : List Char := text.rtakeWhile (· != '\n')

theorem lastLine_concat (text : List Char) (c : Char) :
    lastLine (text ++ [c]) = if c = '\n' then [] else lastLine text ++ [c] := by
  simp [lastLine, List.rtakeWhile_concat]

namespace Text

theorem lineStarts_append (text rest : List Char) : ∀ (found : Array Nat) (offset : Nat),
    lineStarts found offset (text ++ rest) =
      lineStarts (lineStarts found offset text) (offset + byteCount text) rest := by
  induction text with
  | nil => exact fun _ _ => rfl
  | cons c text ih =>
      intro found offset
      rw [List.cons_append, lineStarts, lineStarts, ih, byteCount_cons, Nat.add_assoc]

/-- A line starts behind each line feed of a text. -/
theorem exists_lineStarts (text : List Char) : ∀ (found : Array Nat) (offset : Nat), ∃ more,
    (lineStarts found offset text).toList = found.toList ++ more ∧
      more.length = text.count '\n' ∧ more.Pairwise (· < ·) ∧
      ∀ n ∈ more, offset < n ∧ n ≤ offset + byteCount text := by
  induction text with
  | nil => exact fun found offset => ⟨[], by simp [lineStarts], rfl, .nil, by simp⟩
  | cons c text ih =>
      intro found offset
      have hpos := c.utf8Size_pos
      rw [lineStarts, byteCount_cons]
      by_cases hc : c = '\n'
      · obtain ⟨more, hmore, hlength, hsorted, hrange⟩ :=
          ih (found.push (offset + c.utf8Size)) (offset + c.utf8Size)
        refine ⟨(offset + c.utf8Size) :: more, ?_, ?_, ?_, ?_⟩
        · rw [if_pos hc, hmore, Array.toList_push, List.append_assoc]
          rfl
        · rw [List.length_cons, hlength, hc, List.count_cons_self]
        · exact .cons (fun n hn => (hrange n hn).1) hsorted
        · refine List.forall_mem_cons.2 ⟨by omega, fun n hn => ?_⟩
          have := hrange n hn
          omega
      · obtain ⟨more, hmore, hlength, hsorted, hrange⟩ := ih found (offset + c.utf8Size)
        refine ⟨more, ?_, ?_, hsorted, ?_⟩
        · rw [if_neg hc, hmore]
        · rw [hlength, List.count_cons_of_ne hc]
        · intro n hn
          have := hrange n hn
          omega

/-- Behind the first character of a text, its lines start behind that character. -/
theorem exists_lineStarts_behind (text : List Char) (found : Array Nat) (offset : Nat) : ∃ more,
    (lineStarts found offset text).toList = found.toList ++ more ∧
      ∀ n ∈ more, ∃ c ∈ text.head?, offset + c.utf8Size ≤ n := by
  cases text with
  | nil => exact ⟨[], by simp [lineStarts], by simp⟩
  | cons c text =>
      obtain ⟨more, hmore, -, -, hrange⟩ :=
        exists_lineStarts text (if c = '\n' then found.push (offset + c.utf8Size) else found)
          (offset + c.utf8Size)
      have hle : ∀ n ∈ more, offset + c.utf8Size ≤ n := fun n hn => Nat.le_of_lt (hrange n hn).1
      by_cases hc : c = '\n'
      · refine ⟨(offset + c.utf8Size) :: more, ?_, ?_⟩
        · rw [lineStarts, hmore, if_pos hc, Array.toList_push, List.append_assoc]
          rfl
        · intro n hn
          rcases List.mem_cons.1 hn with rfl | hn
          · exact ⟨c, rfl, Nat.le_refl _⟩
          · exact ⟨c, rfl, hle n hn⟩
      · exact ⟨more, by rw [lineStarts, hmore, if_neg hc], fun n hn => ⟨c, rfl, hle n hn⟩⟩

/-- The last line of a text starts where its last line feed ends. -/
theorem getLast?_lineStarts (text : List Char) :
    (lineStarts #[0] 0 text)[(lineStarts #[0] 0 text).size - 1]? =
      some (byteCount (text.rdropWhile (· != '\n'))) := by
  induction text using List.reverseRecOn with
  | nil => rfl
  | append_singleton text c ih =>
      rw [lineStarts_append, lineStarts, lineStarts, Nat.zero_add]
      by_cases hc : c = '\n'
      · subst hc
        simp [byteCount_cons]
      · rw [if_neg hc, ih, List.rdropWhile_concat_pos]
        simpa using hc

/-! ## Bytes and characters -/

theorem pass?_append (text rest : List Char) : ∀ (count n : Nat),
    pass? count (byteCount text + n) (text ++ rest) = pass? (count + text.length) n rest := by
  induction text with
  | nil => exact fun count n => by rw [byteCount_nil, Nat.zero_add]; rfl
  | cons c text ih =>
      intro count n
      have hpos := c.utf8Size_pos
      obtain ⟨m, hm⟩ : ∃ m, byteCount (c :: text) + n = m + 1 :=
        ⟨byteCount (c :: text) + n - 1, by rw [byteCount_cons]; omega⟩
      have hle : c.utf8Size ≤ m + 1 := by rw [← hm, byteCount_cons]; omega
      have hrest : m + 1 - c.utf8Size = byteCount text + n := by rw [← hm, byteCount_cons]; omega
      rw [hm, List.cons_append, pass?, if_pos hle, hrest, ih, List.length_cons]
      congr 1
      omega

/-- The first bytes of a character are no text. -/
theorem pass?_inside {c : Char} {n : Nat} (hpos : 0 < n) (hlt : n < c.utf8Size) (count : Nat)
    (rest : List Char) : pass? count n (c :: rest) = none := by
  obtain ⟨m, rfl⟩ : ∃ m, n = m + 1 := ⟨n - 1, by omega⟩
  rw [pass?, if_neg (by omega)]

end Text

/-- Every offset up to the end of a text is between two characters or inside one. -/
theorem exists_before (text : List Char) : ∀ n ≤ byteCount text, ∃ before after,
    text = before ++ after ∧ byteCount before ≤ n ∧
      (n ≠ byteCount before → ∃ c rest, after = c :: rest ∧ n < byteCount before + c.utf8Size) := by
  induction text with
  | nil => exact fun n hn => ⟨[], [], rfl, Nat.zero_le n, fun hne => absurd (Nat.le_zero.1 hn) hne⟩
  | cons c text ih =>
      intro n hn
      rw [byteCount_cons] at hn
      by_cases hc : n < c.utf8Size
      · exact ⟨[], c :: text, rfl, Nat.zero_le n, fun _ => ⟨c, text, rfl, by simpa using hc⟩⟩
      · obtain ⟨m, rfl⟩ := Nat.exists_eq_add_of_le (Nat.le_of_not_lt hc)
        obtain ⟨before, after, rfl, hle, hinside⟩ := ih m (by omega)
        refine ⟨c :: before, after, rfl, by rw [byteCount_cons]; omega, ?_⟩
        rw [byteCount_cons]
        intro hne
        obtain ⟨d, rest, rfl, hlt⟩ := hinside fun heq => hne (congrArg _ heq)
        exact ⟨d, rest, rfl, by omega⟩

/-! ## Lookups -/

namespace LineIndex

variable {file source : String} {before after : List Char} {n : Nat}

theorem starts_sorted (file source : String) :
    (ofSource file source).starts.toList.Pairwise (· < ·) := by
  obtain ⟨more, hmore, -, hsorted, hrange⟩ := Text.exists_lineStarts source.toList #[0] 0
  rw [ofSource, hmore]
  exact .cons (fun n hn => (hrange n hn).1) hsorted

theorem search_divides (file source : String) (n : Nat) :
    DividesAt (ofSource file source).starts n ((ofSource file source).search n).rank :=
  Searched.between_divides (starts_sorted file source) (Nat.zero_le _) (by omega) (by omega)

/-- A search for an offset comes to the last line in front of it. -/
theorem search_last (hsource : source.toList = before ++ after) (hle : byteCount before ≤ n)
    (hlt : ∀ c ∈ after.head?, n < byteCount before + c.utf8Size) :
    ((ofSource file source).search n).last = before.count '\n' ∧
      (ofSource file source).starts[((ofSource file source).search n).last]? =
        some (byteCount (before.rdropWhile (· != '\n'))) := by
  obtain ⟨more₁, hmore₁, hlength, -, hrange⟩ := Text.exists_lineStarts before #[0] 0
  obtain ⟨more₂, hmore₂, hbehind⟩ :=
    Text.exists_lineStarts_behind after (Text.lineStarts #[0] 0 before) (byteCount before)
  have hstarts : (ofSource file source).starts.toList =
      (Text.lineStarts #[0] 0 before).toList ++ more₂ := by
    rw [ofSource, hsource, Text.lineStarts_append, Nat.zero_add, hmore₂]
  have hsize : (Text.lineStarts #[0] 0 before).size = before.count '\n' + 1 := by
    rw [← Array.length_toList, hmore₁, List.length_append, hlength]
    exact Nat.add_comm _ _
  have hrank := (search_divides file source n).eq_size hstarts ?upTo ?behind
  case upTo =>
    intro a ha
    rw [← Array.mem_toList_iff, hmore₁] at ha
    rcases List.mem_append.1 ha with ha | ha
    · rw [List.mem_singleton.1 ha]
      exact Nat.zero_le n
    · have := hrange a ha
      omega
  case behind =>
    intro b hb
    obtain ⟨c, hc, hle⟩ := hbehind b hb
    exact Nat.lt_of_lt_of_le (hlt c hc) hle
  rw [Searched.last_eq, hrank, hsize, Nat.add_sub_cancel]
  refine ⟨rfl, ?_⟩
  have hlast := Text.getLast?_lineStarts before
  rw [hsize, Nat.add_sub_cancel] at hlast
  rw [← Array.getElem?_toList, hstarts, List.getElem?_append_left, Array.getElem?_toList, hlast]
  rw [Array.length_toList, hsize]
  exact Nat.lt_succ_self _

/-- The location of an offset in the character behind a text, or in front of that character. -/
theorem locate_eq (hsource : source.toList = before ++ after) (hle : byteCount before ≤ n)
    (hn : n ≤ source.utf8ByteSize)
    (hlt : ∀ c ∈ after.head?, n < byteCount before + c.utf8Size) :
    (ofSource file source).locate n = ⟨file, before.count '\n' + 1,
      ((Text.pass? (lastLine before).length (n - byteCount before) after).map Prod.fst).getD 0 +
        1⟩ := by
  obtain ⟨hlast, hstart⟩ := @search_last file source before after n hsource hle hlt
  rw [hlast] at hstart
  have hsplit : before.rdropWhile (· != '\n') ++ lastLine before = before :=
    List.rdropWhile_append_rtakeWhile
  have hbytes := congrArg byteCount hsplit
  rw [byteCount_append] at hbytes
  have hpass : Text.pass? 0 (byteCount (before.rdropWhile (· != '\n'))) source.toList =
      some ((before.rdropWhile (· != '\n')).length, lastLine before ++ after) := by
    rw [hsource, ← hsplit, List.append_assoc, hsplit,
      ← Nat.add_zero (byteCount (before.rdropWhile (· != '\n'))), Text.pass?_append, Nat.zero_add,
      Text.pass?]
  have hrest : n - byteCount (before.rdropWhile (· != '\n')) =
      byteCount (lastLine before) + (n - byteCount before) := by omega
  have hget : (ofSource file source).starts.getD (before.count '\n') 0 =
      byteCount (before.rdropWhile (· != '\n')) := by
    rw [Array.getD_eq_getD_getElem?, hstart]
    rfl
  have hmin : min n (ofSource file source).source.utf8ByteSize = n := Nat.min_eq_left hn
  have htext : (ofSource file source).source.toList = source.toList := rfl
  simp only [locate, hmin, htext, hget, hlast, hpass]
  rw [hrest, Text.pass?_append, Nat.zero_add]
  rfl

end LineIndex

/-! ## Counting -/

namespace Position

/-- The place behind a text, counted from the start. -/
theorem after_start (text : List Char) :
    start.after text = ⟨byteCount text, text.count '\n' + 1, (lastLine text).length + 1⟩ := by
  induction text using List.reverseRecOn with
  | nil => rfl
  | append_singleton text c ih =>
      rw [after_append, ih, after_cons, after_nil, advance, byteCount_append, byteCount_cons,
        byteCount_nil, lastLine_concat, List.count_append]
      by_cases hc : c = '\n'
      · simp [hc]
      · simp [hc]

end Position

/-- The location comes before the other: on an earlier line, or earlier on the same. -/
def Location.Before (l l' : Location) : Prop :=
  l.line < l'.line ∨ l.line = l'.line ∧ l.column < l'.column

namespace Location.Before

variable {l l' l'' : Location}

theorem trans (h : l.Before l') (h' : l'.Before l'') : l.Before l'' := by
  unfold Before at *
  omega

end Location.Before

/-- Characters lead to a later place. -/
theorem Position.before_after {text : List Char} (htext : text ≠ []) (file : String) :
    ∀ p : Position, (Location.ofPosition file p).Before (.ofPosition file (p.after text)) := by
  induction text with
  | nil => exact absurd rfl htext
  | cons c text ih =>
      intro p
      have hc : (Location.ofPosition file p).Before (.ofPosition file (p.advance c)) := by
        rw [advance]
        split
        next => exact Or.inl (Nat.lt_succ_self _)
        next => exact Or.inr ⟨rfl, Nat.lt_succ_self _⟩
      by_cases hnil : text = []
      · subst hnil
        exact hc
      · exact hc.trans (ih hnil (p.advance c))

namespace LineIndex

variable {file source : String} {before after : List Char}

/-- An offset between two characters is located where counting through the text comes to. -/
theorem locate_boundary (hsource : source.toList = before ++ after) :
    (ofSource file source).locate (byteCount before) =
      .ofPosition file (Position.start.after before) := by
  have hsize : byteCount before ≤ source.utf8ByteSize := by
    rw [← byteCount_toList, hsource, byteCount_append]
    exact Nat.le_add_right _ _
  have hlt : ∀ c ∈ after.head?, byteCount before < byteCount before + c.utf8Size :=
    fun c _ => Nat.lt_add_of_pos_right c.utf8Size_pos
  rw [locate_eq hsource (Nat.le_refl _) hsize hlt, Nat.sub_self, Text.pass?, Position.after_start]
  rfl

/-- An offset inside a character is located in its line, and in the first column. -/
theorem locate_inside {c : Char} {rest : List Char} {n : Nat}
    (hsource : source.toList = before ++ c :: rest) (hgt : byteCount before < n)
    (hlt : n < byteCount before + c.utf8Size) :
    (ofSource file source).locate n = ⟨file, before.count '\n' + 1, 1⟩ := by
  have hsize : n ≤ source.utf8ByteSize := by
    rw [← byteCount_toList, hsource, byteCount_append, byteCount_cons]
    omega
  have hhead : ∀ d ∈ (c :: rest).head?, n < byteCount before + d.utf8Size := by
    rintro _ ⟨⟩
    exact hlt
  rw [locate_eq hsource (Nat.le_of_lt hgt) hsize hhead,
    Text.pass?_inside (by omega) (by omega)]
  rfl

end LineIndex

/-! ## Bytes -/

namespace Text

/-- The byte of a line feed is that character, and is in no other. -/
theorem count_utf8EncodeChar (c : Char) :
    (String.utf8EncodeChar c).count 10 = [c].count '\n' := by
  by_cases hc : c = '\n'
  · subst hc
    decide
  · have hval : c.val.toNat ≠ 10 := fun h => hc (Char.ext (UInt32.toNat_inj.1 h))
    have hbyte : ∀ n : Nat, n < 256 → n ≠ 10 → (10 : UInt8) ≠ UInt8.ofNat n := by
      intro n hn hne heq
      have := congrArg UInt8.toNat heq
      rw [UInt8.toNat_ofNat', Nat.mod_eq_of_lt hn] at this
      exact hne this.symm
    -- in a longer form all bytes are 128 at least
    have hlong : ∀ n : Nat, n < 128 → (10 : UInt8) ≠ UInt8.ofNat (n + 128) :=
      fun n hn => hbyte _ (by omega) (by omega)
    have hbytes : (10 : UInt8) ∉ String.utf8EncodeChar c := by
      rw [String.utf8EncodeChar]
      split
      next => simpa only [List.mem_singleton] using hbyte _ (by omega) hval
      next =>
        split
        next =>
          simp only [List.mem_cons, List.not_mem_nil, or_false, not_or]
          exact ⟨hbyte _ (by omega) (by omega), hlong _ (by omega)⟩
        next =>
          split
          next =>
            simp only [List.mem_cons, List.not_mem_nil, or_false, not_or]
            exact ⟨hbyte _ (by omega) (by omega), hlong _ (by omega), hlong _ (by omega)⟩
          next =>
            simp only [List.mem_cons, List.not_mem_nil, or_false, not_or]
            exact ⟨hbyte _ (by omega) (by omega), hlong _ (by omega), hlong _ (by omega),
              hlong _ (by omega)⟩
    rw [List.count_eq_zero.2 hbytes, List.count_eq_zero.2 (by simpa using Ne.symm hc)]

/-- The bytes of a text in UTF-8. -/
def bytes (text : List Char) : List UInt8 := text.flatMap String.utf8EncodeChar

theorem bytes_toList (source : String) : bytes source.toList = source.toByteArray.data.toList := by
  rw [← String.utf8Encode_toList, List.utf8Encode, List.toList_data_toByteArray, bytes]

theorem length_bytes (text : List Char) : (bytes text).length = byteCount text := by
  induction text with
  | nil => rfl
  | cons c text ih =>
      have hcons : bytes (c :: text) = String.utf8EncodeChar c ++ bytes text := rfl
      rw [hcons, List.length_append, String.length_utf8EncodeChar, ih, byteCount_cons]

theorem count_bytes (text : List Char) : (bytes text).count 10 = text.count '\n' := by
  induction text with
  | nil => rfl
  | cons c text ih =>
      have hcons : bytes (c :: text) = String.utf8EncodeChar c ++ bytes text := rfl
      rw [hcons, List.count_append, count_utf8EncodeChar, ih, ← List.count_append]
      rfl

/-- Bytes of a character that are not all of it have no line feed. -/
theorem count_take_utf8EncodeChar {c : Char} {n : Nat} (h : n < c.utf8Size) :
    ((String.utf8EncodeChar c).take n).count 10 = 0 := by
  by_cases hc : c = '\n'
  · subst hc
    obtain rfl : n = 0 := Nat.lt_one_iff.1 h
    rfl
  · have hle := ((String.utf8EncodeChar c).take_sublist n).count_le 10
    rw [count_utf8EncodeChar, List.count_singleton, if_neg (by simpa using hc)] at hle
    exact Nat.le_zero.1 hle

/-- The line feeds among the first bytes are those of the characters that end there. -/
theorem count_take_bytes {before after : List Char} {n : Nat} (hle : byteCount before ≤ n)
    (hlt : ∀ c ∈ after.head?, n < byteCount before + c.utf8Size) :
    ((bytes (before ++ after)).take n).count 10 = before.count '\n' := by
  have happend : bytes (before ++ after) = bytes before ++ bytes after := List.flatMap_append
  have hafter : ((bytes after).take (n - byteCount before)).count 10 = 0 := by
    cases after with
    | nil => rw [bytes, List.flatMap_nil, List.take_nil, List.count_nil]
    | cons c after =>
        have hc := hlt c rfl
        have hshort : n - byteCount before ≤ (String.utf8EncodeChar c).length := by
          rw [String.length_utf8EncodeChar]
          omega
        rw [bytes, List.flatMap_cons, List.take_append_of_le_length hshort]
        exact count_take_utf8EncodeChar (by omega)
  rw [happend, List.take_append, List.take_of_length_le (by rwa [length_bytes]), length_bytes,
    List.count_append, count_bytes, hafter, Nat.add_zero]

end Text

/-! ## Sources -/

/-- An offset is between two characters if the source divides there. -/
theorem isValid_iff_exists_before {source : String} {offset : Nat} :
    String.Pos.Raw.IsValid source ⟨offset⟩ ↔
      ∃ before after, source.toList = before ++ after ∧ byteCount before = offset := by
  constructor
  · intro h
    obtain ⟨s, t, rfl, hoffset⟩ := String.Pos.Raw.isValid_iff_exists_append.1 h
    refine ⟨s.toList, t.toList, String.toList_append, ?_⟩
    rw [byteCount_toList]
    exact (congrArg String.Pos.Raw.byteIdx hoffset).symm
  · rintro ⟨before, after, hsource, rfl⟩
    exact GoesOn.isValid ⟨before, hsource, rfl⟩

/-- A source does not divide inside a character. -/
theorem not_isValid_inside {source : String} {before rest : List Char} {c : Char} {n : Nat}
    (hsource : source.toList = before ++ c :: rest) (hgt : byteCount before < n)
    (hlt : n < byteCount before + c.utf8Size) : ¬ String.Pos.Raw.IsValid source ⟨n⟩ := by
  intro hvalid
  obtain ⟨before', after', hsource', rfl⟩ := isValid_iff_exists_before.1 hvalid
  rcases List.append_eq_append_iff.1 (hsource.symm.trans hsource') with
    ⟨more, rfl, hmore⟩ | ⟨more, rfl, -⟩
  · cases more with
    | nil => simp at hgt
    | cons d more =>
        obtain rfl : c = d := (List.cons.inj hmore).1
        rw [byteCount_append, byteCount_cons] at hlt
        omega
  · rw [byteCount_append] at hgt
    omega

namespace Location

/-- The location of an offset of a source, as counting gives it. -/
structure Counted (file source : String) (offset : Nat) (l : Location) : Prop where
  /-- It is in the file. -/
  file_eq : l.file = file
  /-- The line counts the line feeds among the bytes in front of the offset. -/
  line_eq : l.line = 1 + (source.toByteArray.data.toList.take offset).count 10
  /-- Between two characters, the column counts the characters behind the last line feed in front
  of the offset, or all in front of it if there is none. -/
  column_eq : String.Pos.Raw.IsValid source ⟨offset⟩ → ∃ before after,
    source.toList = before ++ after ∧ byteCount before = offset ∧
      l.column = 1 + (lastLine before).length
  /-- Inside a character it is the first. -/
  column_inside : ¬ String.Pos.Raw.IsValid source ⟨offset⟩ → l.column = 1

theorem counted_ofOffset (file source : String) (offset : Nat) :
    Counted file source (min offset source.utf8ByteSize) (ofOffset file source offset) := by
  have hmin : ofOffset file source offset =
      (LineIndex.ofSource file source).locate (min offset source.utf8ByteSize) := by
    have hsize : (LineIndex.ofSource file source).source.utf8ByteSize = source.utf8ByteSize := rfl
    simp only [ofOffset, LineIndex.locate, hsize, Nat.min_assoc, Nat.min_self]
  rw [hmin]
  generalize hn : min offset source.utf8ByteSize = n
  have hle : n ≤ byteCount source.toList := by
    rw [byteCount_toList, ← hn]
    exact Nat.min_le_right _ _
  obtain ⟨before, after, hsource, hbefore, hinside⟩ := exists_before source.toList n hle
  by_cases heq : n = byteCount before
  · subst heq
    have hlt : ∀ c ∈ after.head?, byteCount before < byteCount before + c.utf8Size :=
      fun c _ => Nat.lt_add_of_pos_right c.utf8Size_pos
    have hbytes := Text.count_take_bytes hbefore hlt
    rw [← hsource, Text.bytes_toList] at hbytes
    have hvalid := isValid_iff_exists_before.2 ⟨before, after, hsource, rfl⟩
    rw [LineIndex.locate_boundary hsource, Position.after_start]
    refine ⟨rfl, ?_, fun _ => ⟨before, after, hsource, rfl, Nat.add_comm _ _⟩,
      fun h => absurd hvalid h⟩
    rw [hbytes]
    exact Nat.add_comm _ _
  · obtain ⟨c, rest, rfl, hlt⟩ := hinside heq
    have hhead : ∀ d ∈ (c :: rest).head?, n < byteCount before + d.utf8Size := by
      rintro _ ⟨⟩
      exact hlt
    have hbytes := Text.count_take_bytes hbefore hhead
    rw [← hsource, Text.bytes_toList] at hbytes
    rw [LineIndex.locate_inside hsource (by omega) hlt]
    refine ⟨rfl, ?_, fun h => absurd h (not_isValid_inside hsource (by omega) hlt), fun _ => rfl⟩
    rw [hbytes]
    exact Nat.add_comm _ _

theorem before_ofOffset {file source : String} {offset offset' : Nat}
    (h : String.Pos.Raw.IsValid source ⟨offset⟩) (h' : String.Pos.Raw.IsValid source ⟨offset'⟩)
    (hlt : offset < offset') :
    (ofOffset file source offset).Before (ofOffset file source offset') := by
  obtain ⟨before, after, hsource, rfl⟩ := isValid_iff_exists_before.1 h
  obtain ⟨before', after', hsource', rfl⟩ := isValid_iff_exists_before.1 h'
  obtain ⟨more, hmore⟩ : ∃ more, before' = before ++ more := by
    rcases List.append_eq_append_iff.1 (hsource.symm.trans hsource') with
      ⟨more, hmore, -⟩ | ⟨more, hmore, -⟩
    · exact ⟨more, hmore⟩
    · rw [hmore, byteCount_append] at hlt
      omega
  subst hmore
  rw [ofOffset, ofOffset, LineIndex.locate_boundary hsource, LineIndex.locate_boundary hsource',
    Position.after_append]
  refine Position.before_after ?_ file _
  rintro rfl
  rw [List.append_nil] at hlt
  exact Nat.lt_irrefl _ hlt

/-- Locations are those that counting gives, where an offset behind the source is its end.  The
search among the line starts always comes to one of them: where the offset is missing, it belongs
in front of a line that is not the first, so that there is a line in front of that one.  On offsets
between characters, a smaller offset has an earlier location. -/
theorem ofOffset_counted (file source : String) :
    (∀ offset, Counted file source (min offset source.utf8ByteSize)
      (ofOffset file source offset)) ∧
    (∀ offset next, (LineIndex.ofSource file source).search offset = .missing next → 1 ≤ next) ∧
    (∀ offset, ((LineIndex.ofSource file source).search offset).last <
      (LineIndex.ofSource file source).starts.size) ∧
    ∀ offset offset', String.Pos.Raw.IsValid source ⟨offset⟩ →
      String.Pos.Raw.IsValid source ⟨offset'⟩ → offset < offset' →
      (ofOffset file source offset).Before (ofOffset file source offset') := by
  have hfirst : (LineIndex.ofSource file source).starts[0]? = some 0 := by
    obtain ⟨more, hmore, -⟩ := Text.exists_lineStarts source.toList #[0] 0
    rw [← Array.getElem?_toList, LineIndex.ofSource, hmore]
    rfl
  obtain ⟨hpos, hzero⟩ := Array.getElem?_eq_some_iff.1 hfirst
  have hrank : ∀ offset, 1 ≤ ((LineIndex.ofSource file source).search offset).rank := by
    intro offset
    by_contra hnot
    have habove := (LineIndex.search_divides file source offset).above 0 hpos (by omega)
    rw [hzero] at habove
    exact Nat.not_lt_zero _ habove
  refine ⟨counted_ofOffset file source, ?_, ?_, fun _ _ => before_ofOffset⟩
  · intro offset next hnext
    have h := hrank offset
    rwa [hnext] at h
  · intro offset
    have hle := (LineIndex.search_divides file source offset).le_size
    have h := hrank offset
    rw [Searched.last_eq]
    omega

-- the offset 1 is inside `é`, and 9 is behind the end
example : [0, 1, 2, 3, 9].map (fun n => (ofOffset "" "é\nb" n).text) =
    [":1:1", ":1:1", ":1:2", ":2:1", ":2:2"] := by
  decide +kernel

end Location

end BlockScript
