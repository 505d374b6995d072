import FrontEnd.Proofs.Listing
import FrontEnd.Ty

/-! # Texts of types

Where no name holds a parenthesis, a comma or a space, a type can be read off its text, whatever
stands behind it.

* `Ty.IsPlainName`, `Ty.HasPlainNames`: the names that this takes.
* `Ty.name_inj`: a plain name ends where a delimiter stands.
* `Ty.text_inj`, `Ty.fieldTexts_inj`: the same type stands at the front of the same text.
-/

namespace FrontEnd
set_option autoImplicit false

namespace Ty

/-! ## Names -/

def isDelimiter (c : Char) : Bool := c == '(' || c == ')' || c == ',' || c == ' '

def IsPlainName (name : String) : Prop := ∀ c ∈ name.toList, isDelimiter c = false

instance (name : String) : Decidable (IsPlainName name) :=
  List.decidableBAll (fun c => isDelimiter c = false) name.toList

mutual

/-- The names of primitive types and of fields in a type. -/
def names : Ty → List String
  | primitive name => [name]
  | array _ element => element.names
  | record fields => fieldNames fields

def fieldNames : List (String × Ty) → List String
  | [] => []
  | (name, type) :: fields => name :: (type.names ++ fieldNames fields)

end

theorem fieldNames_append (fields others : List (String × Ty)) :
    fieldNames (fields ++ others) = fieldNames fields ++ fieldNames others := by
  induction fields with
  | nil => rfl
  | cons field fields ih => simp [fieldNames, ih]

theorem names_arrayOf (base : Ty) (sizes : List Nat) : (arrayOf base sizes).names = base.names := by
  induction sizes with
  | nil => rfl
  | cons size sizes ih => exact ih

def HasPlainNames (type : Ty) : Prop := ∀ name ∈ type.names, IsPlainName name

instance (type : Ty) : Decidable type.HasPlainNames :=
  inferInstanceAs (Decidable (∀ name ∈ type.names, IsPlainName name))

/-- Nothing or a delimiter comes next. -/
def EndsName (rest : List Char) : Prop := ∀ c ∈ rest.head?, isDelimiter c = true

theorem name_inj {u v rest rest' : List Char} (hu : ∀ c ∈ u, isDelimiter c = false)
    (hv : ∀ c ∈ v, isDelimiter c = false) (hr : EndsName rest) (hr' : EndsName rest')
    (h : u ++ rest = v ++ rest') : u = v ∧ rest = rest' := by
  have hnot {c : Char} (hc : isDelimiter c = false) : (!isDelimiter c) = true := by simp [hc]
  have hend {c : Char} (hc : isDelimiter c = true) : (!isDelimiter c) = false := by simp [hc]
  exact run_inj (fun c hc => hnot (hu c hc)) (fun c hc => hnot (hv c hc))
    (fun c hc => hend (hr c hc)) (fun c hc => hend (hr' c hc)) h

/-! ## Types -/

/-- Nothing, a comma or a closing parenthesis comes next. -/
def EndsType (rest : List Char) : Prop := ∀ c ∈ rest.head?, c = ',' ∨ c = ')'

theorem endsType_close (rest : List Char) : EndsType (')' :: rest) := by
  simp [EndsType]

/-- The word at the front of a type and what stands in parentheses behind it. -/
def word : Ty → List Char
  | primitive name => name.toList
  | array _ _ => "array".toList
  | record _ => "record".toList

def arguments : Ty → List Char
  | primitive _ => []
  | array size element => '(' :: Nat.toDigits 10 size ++ ',' :: ' ' :: element.text.toList ++ [')']
  | record fields => '(' :: [',', ' '].intercalate ((fieldTexts fields).map String.toList) ++ [')']

theorem toList_text (type : Ty) : type.text.toList = type.word ++ type.arguments := by
  cases type with
  | primitive name => rw [text, word, arguments, List.append_nil]
  | array size element => rw [text, word, arguments]; simp
  | record fields => rw [text, word, arguments]; simp

theorem arguments_array (size : Nat) (element : Ty) (rest : List Char) :
    (array size element).arguments ++ rest =
      '(' :: (Nat.toDigits 10 size ++ ',' :: ' ' :: (element.text.toList ++ ')' :: rest)) := by
  simp [arguments]

theorem arguments_record (fields : List (String × Ty)) (rest : List Char) :
    (record fields).arguments ++ rest =
      '(' :: ([',', ' '].intercalate ((fieldTexts fields).map String.toList) ++ ')' :: rest) := by
  simp [arguments]

theorem endsName_arguments (type : Ty) {rest : List Char} (hr : EndsType rest) :
    EndsName (type.arguments ++ rest) := by
  cases type with
  | primitive name =>
    intro c hc
    rcases hr c hc with rfl | rfl <;> rfl
  | array size element => simp [arguments, EndsName, isDelimiter]
  | record fields => simp [arguments, EndsName, isDelimiter]

theorem word_plain {type : Ty} (h : type.HasPlainNames) : ∀ c ∈ type.word, isDelimiter c = false := by
  cases type with
  | primitive name => exact h name (by simp [names])
  | array size element => exact (show IsPlainName "array" by decide)
  | record fields => exact (show IsPlainName "record" by decide)

/-- What follows a primitive type is not a list of arguments. -/
theorem ne_open_of_endsType {rest more : List Char} (hr : EndsType rest) : rest ≠ '(' :: more := by
  rintro rfl
  exact absurd (hr '(' rfl) (by decide)

/-- What follows a field in a record. -/
def afterField (fields : List (String × Ty)) (rest : List Char) : List Char :=
  match fields with
  | [] => ')' :: rest
  | field :: fields =>
    ',' :: ' ' :: [',', ' '].intercalate ((fieldTexts (field :: fields)).map String.toList) ++
      ')' :: rest

theorem toList_fieldTexts_cons (name : String) (type : Ty) (fields : List (String × Ty))
    (rest : List Char) :
    [',', ' '].intercalate ((fieldTexts ((name, type) :: fields)).map String.toList) ++ ')' :: rest =
      '(' :: (name.toList ++ ',' :: ' ' :: (type.text.toList ++ ')' :: afterField fields rest)) := by
  cases fields with
  | nil => simp [fieldTexts, afterField]
  | cons field fields => simp [fieldTexts, afterField, List.intercalate_cons_cons]

mutual

/-- With anything behind them that can follow a type, equal texts start with the same type. -/
theorem text_inj : ∀ (a b : Ty) {rest rest' : List Char}, a.HasPlainNames → b.HasPlainNames →
    EndsType rest → EndsType rest' → a.text.toList ++ rest = b.text.toList ++ rest' →
      a = b ∧ rest = rest' := by
  intro a b rest rest' ha hb hr hr' h
  rw [toList_text, toList_text, List.append_assoc, List.append_assoc] at h
  obtain ⟨hword, harguments⟩ := name_inj (word_plain ha) (word_plain hb)
    (a.endsName_arguments hr) (b.endsName_arguments hr') h
  match a, b, ha, hb with
  | primitive name, primitive other, _, _ =>
    exact ⟨congrArg primitive (String.toList_inj.1 hword), harguments⟩
  | primitive name, array _ _, _, _ => exact absurd harguments (ne_open_of_endsType hr)
  | primitive name, record _, _, _ => exact absurd harguments (ne_open_of_endsType hr)
  | array _ _, primitive name, _, _ => exact absurd harguments.symm (ne_open_of_endsType hr')
  | record _, primitive name, _, _ => exact absurd harguments.symm (ne_open_of_endsType hr')
  | array _ _, record _, _, _ =>
    exact absurd (show "array".toList = "record".toList from hword) (by decide)
  | record _, array _ _, _, _ =>
    exact absurd (show "record".toList = "array".toList from hword) (by decide)
  | array size s, array size' t, ha, hb =>
    rw [arguments_array, arguments_array] at harguments
    have hdigits : ∀ n, ',' ∉ Nat.toDigits 10 n := Tree.not_mem_digits (by decide)
    obtain ⟨hsize, helement⟩ := Tree.cut_inj (hdigits size) (hdigits size')
      (List.cons.inj harguments).2
    obtain ⟨rfl, hrest⟩ := text_inj s t ha hb (endsType_close rest) (endsType_close rest')
      (List.cons.inj helement).2
    obtain rfl := Tree.digits_inj hsize
    exact ⟨rfl, (List.cons.inj hrest).2⟩
  | record fs, record gs, ha, hb =>
    rw [arguments_record, arguments_record] at harguments
    obtain ⟨rfl, hrest⟩ := fieldTexts_inj fs gs ha hb (List.cons.inj harguments).2
    exact ⟨rfl, hrest⟩

theorem fieldTexts_inj : ∀ (fs gs : List (String × Ty)) {rest rest' : List Char},
    (∀ name ∈ fieldNames fs, IsPlainName name) → (∀ name ∈ fieldNames gs, IsPlainName name) →
    [',', ' '].intercalate ((fieldTexts fs).map String.toList) ++ ')' :: rest =
      [',', ' '].intercalate ((fieldTexts gs).map String.toList) ++ ')' :: rest' →
    fs = gs ∧ rest = rest'
  | [], [], _, _, _, _, h => ⟨rfl, (List.cons.inj h).2⟩
  | [], (name, type) :: gs, _, _, _, _, h => by
    rw [toList_fieldTexts_cons] at h
    exact absurd (List.cons.inj h).1 (by decide)
  | (name, type) :: fs, [], _, _, _, _, h => by
    rw [toList_fieldTexts_cons] at h
    exact absurd (List.cons.inj h).1 (by decide)
  | (name, s) :: fs, (other, t) :: gs, rest, rest', hf, hg, h => by
    rw [fieldNames, List.forall_mem_cons, List.forall_mem_append] at hf hg
    rw [toList_fieldTexts_cons, toList_fieldTexts_cons] at h
    have hcomma (more : List Char) : EndsName (',' :: more) := by simp [EndsName, isDelimiter]
    obtain ⟨hname, htype⟩ := name_inj hf.1 hg.1 (hcomma _) (hcomma _) (List.cons.inj h).2
    obtain ⟨rfl, hclose⟩ := text_inj s t hf.2.1 hg.2.1 (endsType_close _) (endsType_close _)
      (List.cons.inj (List.cons.inj htype).2).2
    obtain rfl := String.toList_inj.1 hname
    have hafter := (List.cons.inj hclose).2
    unfold afterField at hafter
    match fs, gs, hf, hg, hafter with
    | [], [], _, _, hafter => exact ⟨rfl, (List.cons.inj hafter).2⟩
    | [], _ :: _, _, _, hafter => exact absurd (List.cons.inj hafter).1 (by decide)
    | _ :: _, [], _, _, hafter => exact absurd (List.cons.inj hafter).1 (by decide)
    | f :: fs, g :: gs, hf, hg, hafter =>
      obtain ⟨heq, hrest⟩ := fieldTexts_inj (f :: fs) (g :: gs) hf.2.2 hg.2.2
        (List.cons.inj (List.cons.inj hafter).2).2
      rw [heq]
      exact ⟨rfl, hrest⟩

end

end Ty
end FrontEnd
