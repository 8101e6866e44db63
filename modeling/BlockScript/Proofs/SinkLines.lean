import BlockScript.Sink

/-!
# Lines on a sink

Writing lines one after the other is writing their bytes at once, except that each line which does not fit
has a cause of its own. A sink with limited room keeps the beginning of what it is given.
-/
namespace BlockScript.Sink

/-- What was written to the sink since an earlier state of it. -/
def contentSince (s earlier : Sink) : ByteArray := s.content.extract earlier.content.size s.content.size

/-- The bytes of lines. -/
def lines : List String → ByteArray
  | [] => .empty
  | text :: texts => (text ++ "\n").toUTF8 ++ lines texts

/-- Writes lines, whether or not those before have fit; the second part has a cause for each line that has
not. -/
def writeLines (s : Sink) : List String → Sink × List String
  | [] => (s, [])
  | text :: texts =>
    let rest := (s.writeLine text).1.writeLines texts
    (rest.1, (s.writeLine text).2.toList ++ rest.2)

theorem lines_append (texts texts' : List String) : lines (texts ++ texts') = lines texts ++ lines texts' := by
  induction texts with
  | nil => rw [List.nil_append, lines, ByteArray.empty_append]
  | cons text texts ih => rw [List.cons_append, lines, lines, ih, ByteArray.append_assoc]

@[simp] theorem lines_singleton (text : String) : lines [text] = (text ++ "\n").toUTF8 := by
  rw [lines, lines, ByteArray.append_empty]

theorem size_lines_append (texts texts' : List String) :
    (lines (texts ++ texts')).size = (lines texts).size + (lines texts').size := by
  rw [lines_append, ByteArray.size_append]

/-- Every line has at least the byte that ends it. -/
theorem size_lines_singleton_pos (text : String) : 0 < (lines [text]).size := by
  rw [lines_singleton]
  change 0 < (text ++ "\n").toByteArray.size
  rw [String.toByteArray_append, ByteArray.size_append]
  exact Nat.lt_of_lt_of_le Nat.zero_lt_one (Nat.le_add_left 1 _)

/-- Some of the texts come before the limit, and the next one, if there is any, exceeds it. -/
theorem exists_split {α : Type} (f : α → String) (room : Nat) (items : List α) :
    ∃ within beyond, items = within ++ beyond ∧ (lines (within.map f)).size ≤ room ∧
      ∀ item ∈ beyond.head?, room < (lines ((within ++ [item]).map f)).size := by
  induction items generalizing room with
  | nil => exact ⟨[], [], rfl, Nat.zero_le room, fun _ h => by cases h⟩
  | cons item items ih =>
    by_cases hfits : (lines [f item]).size ≤ room
    · obtain ⟨within, beyond, rfl, hwithin, hbeyond⟩ := ih (room - (lines [f item]).size)
      have hsize : ∀ rest : List α, (lines ((item :: rest).map f)).size =
          (lines [f item]).size + (lines (rest.map f)).size :=
        fun rest => size_lines_append [f item] (rest.map f)
      refine ⟨item :: within, beyond, rfl, ?_, fun next hnext => ?_⟩
      · rw [hsize]
        omega
      · have hlt := hbeyond next hnext
        rw [List.cons_append, hsize]
        omega
    · refine ⟨[], item :: items, rfl, Nat.zero_le room, fun next hnext => ?_⟩
      obtain rfl : item = next := by simpa using hnext
      exact Nat.lt_of_not_le hfits

/-! ### Writes -/

theorem write_write (s : Sink) (bytes bytes' : ByteArray) :
    ((s.write bytes).1.write bytes').1 = (s.write (bytes ++ bytes')).1 := by
  obtain ⟨content, capacity⟩ := s
  cases capacity with
  | unlimited => simp only [write, ByteArray.append_assoc]
  | limited room cause =>
    simp only [write, ByteArray.append_assoc, ByteArray.extract_append, ByteArray.size_append, Nat.zero_sub,
      Nat.sub_sub]

theorem write_empty (s : Sink) : (s.write .empty).1 = s := by
  obtain ⟨content, capacity⟩ := s
  cases capacity with
  | unlimited => simp only [write, ByteArray.append_empty]
  | limited room cause =>
    have hnone : ByteArray.empty.extract 0 room = .empty := ByteArray.extract_eq_empty_iff.2 (Nat.min_le_right _ _)
    simp only [write, hnone, ByteArray.append_empty, ByteArray.size_empty, Nat.sub_zero]

theorem writeLine_eq (s : Sink) (text : String) : s.writeLine text = s.write (lines [text]) := by
  rw [lines_singleton]
  rfl

theorem writeLines_append (s : Sink) (texts texts' : List String) :
    s.writeLines (texts ++ texts') =
      (((s.writeLines texts).1.writeLines texts').1,
        (s.writeLines texts).2 ++ ((s.writeLines texts).1.writeLines texts').2) := by
  induction texts generalizing s with
  | nil => rfl
  | cons text texts ih => simp only [List.cons_append, writeLines, ih, List.append_assoc]

/-- What lines leave on a sink are their bytes, as far as they fit. -/
theorem writeLines_fst (s : Sink) (texts : List String) :
    (s.writeLines texts).1 = (s.write (lines texts)).1 := by
  induction texts generalizing s with
  | nil => exact s.write_empty.symm
  | cons text texts ih =>
    have hlines : lines (text :: texts) = lines [text] ++ lines texts := lines_append [text] texts
    rw [writeLines, ih, writeLine_eq, write_write, hlines]

/-- Nothing is lost on an unlimited sink. -/
theorem writeLines_snd_of_unlimited {s : Sink} (h : s.capacity = .unlimited) (texts : List String) :
    (s.writeLines texts).2 = [] := by
  induction texts generalizing s with
  | nil => rfl
  | cons text texts ih =>
    have hwrite := write_of_unlimited h (lines [text])
    rw [← writeLine_eq] at hwrite
    rw [writeLines, hwrite]
    exact ih h

section Limited
variable {s : Sink} {room : Nat} {cause : String} {texts : List String}

theorem writeLine_of_limited (h : s.capacity = .limited room cause) (text : String) :
    (s.writeLine text).1.capacity = .limited (room - (lines [text]).size) cause ∧
      (s.writeLine text).2 = if (lines [text]).size ≤ room then none else some cause := by
  rw [writeLine_eq, write_of_limited h]
  exact ⟨rfl, rfl⟩

theorem writeLines_snd_of_le (h : s.capacity = .limited room cause) (hfits : (lines texts).size ≤ room) :
    (s.writeLines texts).2 = [] := by
  induction texts generalizing s room with
  | nil => rfl
  | cons text texts ih =>
    have hsize : (lines (text :: texts)).size = (lines [text]).size + (lines texts).size :=
      size_lines_append [text] texts
    obtain ⟨hcapacity, hcause⟩ := writeLine_of_limited h text
    rw [if_pos (by omega)] at hcause
    rw [writeLines, hcause]
    exact ih hcapacity (by omega)

/-- After a line that does not fit there is no room at all. -/
theorem writeLines_snd_of_lt (h : s.capacity = .limited room cause)
    (hbeyond : ∀ text ∈ texts.head?, room < (lines [text]).size) :
    (s.writeLines texts).2 = texts.map fun _ => cause := by
  induction texts generalizing s room with
  | nil => rfl
  | cons text texts ih =>
    have hlt : room < (lines [text]).size := hbeyond text rfl
    obtain ⟨hcapacity, hcause⟩ := writeLine_of_limited h text
    rw [if_neg (by omega)] at hcause
    rw [Nat.sub_eq_zero_of_le (by omega)] at hcapacity
    rw [writeLines, hcause, ih hcapacity fun next _ => size_lines_singleton_pos next]
    rfl

/-- There is a cause for each line that is not wholly within the limit, and for no other. -/
theorem writeLines_snd_of_split {within beyond : List String} (h : s.capacity = .limited room cause)
    (hwithin : (lines within).size ≤ room)
    (hbeyond : ∀ text ∈ beyond.head?, room < (lines (within ++ [text])).size) :
    (s.writeLines (within ++ beyond)).2 = beyond.map fun _ => cause := by
  have hcapacity : (s.writeLines within).1.capacity = .limited (room - (lines within).size) cause := by
    rw [writeLines_fst, write_of_limited h]
  have hlt : ∀ text ∈ beyond.head?, room - (lines within).size < (lines [text]).size := by
    intro text htext
    have hnext := hbeyond text htext
    rw [size_lines_append] at hnext
    omega
  rw [writeLines_append, writeLines_snd_of_le h hwithin, List.nil_append,
    writeLines_snd_of_lt hcapacity hlt]

end Limited
end BlockScript.Sink
