/-! # Types

* `Ty.arrayOf`: one array layer per dimension, the first outermost.
* `Ty.text`: the type as it is shown, `array(SIZE, ELEMENT)` and `record((f, T), (g, U))`.
* Types are compared by structure.
-/

namespace FrontEnd
set_option autoImplicit false

inductive Ty where
  /-- A built-in type: `int`, `float`, `char`, … -/
  | primitive (name : String)
  | array (size : Nat) (element : Ty)
  | record (fields : List (String × Ty))
deriving Repr

namespace Ty

mutual

def decEq : (a b : Ty) → Decidable (a = b)
  | primitive n, primitive m =>
    if h : n = m then isTrue (by rw [h]) else isFalse (by simpa using h)
  | array m s, array n t =>
    match decEq s t with
    | isTrue h => if h' : m = n then isTrue (by rw [h, h']) else isFalse (by simp [h'])
    | isFalse h => isFalse (by simp [h])
  | record fs, record gs =>
    match decEqFields fs gs with
    | isTrue h => isTrue (by rw [h])
    | isFalse h => isFalse (by simpa using h)
  | primitive _, array _ _ | primitive _, record _ | array _ _, primitive _
  | array _ _, record _ | record _, primitive _ | record _, array _ _ => isFalse (by simp)

def decEqFields : (fs gs : List (String × Ty)) → Decidable (fs = gs)
  | [], [] => isTrue rfl
  | [], _ :: _ | _ :: _, [] => isFalse (by simp)
  | (f, s) :: fs, (g, t) :: gs =>
    match decEq s t, decEqFields fs gs with
    | isTrue h, isTrue h' =>
      if h'' : f = g then isTrue (by rw [h, h', h'']) else isFalse (by simp [h''])
    | isFalse h, _ => isFalse (by simp [h])
    | _, isFalse h => isFalse (by simp [h])

end

instance : DecidableEq Ty := decEq

def int : Ty := primitive "int"

def float : Ty := primitive "float"

def arrayOf (base : Ty) (sizes : List Nat) : Ty := sizes.foldr array base

def isArray : Ty → Bool
  | array _ _ => true
  | _ => false

mutual

def text : Ty → String
  | primitive name => name
  | array size element => "array(" ++ toString size ++ ", " ++ element.text ++ ")"
  | record fields => "record(" ++ String.intercalate ", " (fieldTexts fields) ++ ")"

def fieldTexts : List (String × Ty) → List String
  | [] => []
  | (name, type) :: fields => ("(" ++ name ++ ", " ++ type.text ++ ")") :: fieldTexts fields

end

end Ty
end FrontEnd
