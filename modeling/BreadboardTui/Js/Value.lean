import Mathlib.Data.String.Basic

/-!
# JavaScript values as the runtime inspects them

The validators of the runtime take `unknown` and look at it with `typeof`, `Array.isArray`,
`Object.keys` and property access. `JsValue` keeps exactly what those operations can
distinguish. Numbers are split into integers and everything else: no validator looks inside
a fraction, a `NaN` or an infinity.
-/

namespace BreadboardTui

/-- A JavaScript number, as far as `Number.isSafeInteger` and the comparisons behind it can
tell numbers apart. -/
inductive JsNumber where
  | integer (value : ℤ)
  | nonInteger
  deriving DecidableEq, Repr

def maxSafeInteger : ℕ := 2 ^ 53 - 1

/-- `Number.isSafeInteger`, returning the integer it accepts. -/
def JsNumber.safeInteger? : JsNumber → Option ℤ
  | .integer value => if value.natAbs ≤ maxSafeInteger then some value else none
  | .nonInteger => none

theorem JsNumber.safeInteger?_eq_some {n : JsNumber} {value : ℤ} (h : n.safeInteger? = some value) :
    n = .integer value ∧ value.natAbs ≤ maxSafeInteger := by
  cases n with
  | integer =>
    simp only [safeInteger?, Option.ite_none_right_eq_some, Option.some.injEq] at h
    obtain ⟨hle, rfl⟩ := h
    exact ⟨rfl, hle⟩
  | nonInteger => simp [safeInteger?] at h

/-- A JavaScript value. An object lists its own enumerable properties, each key once. -/
inductive JsValue where
  | undefined
  | null
  | bool (value : Bool)
  | number (value : JsNumber)
  | string (value : String)
  | array (items : List JsValue)
  | object (fields : List (String × JsValue))
  deriving Repr

/-- `value === text`, for a string `text`. -/
def JsValue.isString (value : JsValue) (text : String) : Bool :=
  match value with
  | .string s => s == text
  | _ => false

/-- Property access on the fields of an object: a missing key reads `undefined`. -/
def getField (fields : List (String × JsValue)) (key : String) : JsValue :=
  (fields.lookup key).getD .undefined

/-- The white space and line terminators that `String.prototype.trim` removes. -/
def isJsWhitespace (c : Char) : Bool :=
  let n := c.toNat
  (0x09 ≤ n && n ≤ 0x0d) || n == 0x20 || n == 0xa0 || n == 0x1680 || (0x2000 ≤ n && n ≤ 0x200a) ||
    n == 0x2028 || n == 0x2029 || n == 0x202f || n == 0x205f || n == 0x3000 || n == 0xfeff

/-- The Unicode category `Cc`. -/
def isControl (c : Char) : Bool :=
  let n := c.toNat
  n ≤ 0x1f || (0x7f ≤ n && n ≤ 0x9f)

/-- `value.trim()`, on the list of characters. -/
def trimChars (cs : List Char) : List Char :=
  ((cs.dropWhile isJsWhitespace).reverse.dropWhile isJsWhitespace).reverse

end BreadboardTui
