/-
`UtilObject` (`com.whpu.util.convert`): values as text, the way a message
travels from `MQSender` to `MQReceiver`, and back.

fastjson is a parameter, with what is relied on of it in `Fastjson.Faithful`.
The numbers are written in decimal and read by `Integer.valueOf` and
`Long.valueOf`, which take more than is ever written. A text is its UTF-16
units; the readers look at them one at a time.

`values_survive` is the result. The writer has an empty text for the empty
string and the reader has no value for an empty text, so that one string comes
back as null.
-/
import CfsShop.BloomFileter
import CfsShop.UserService
import CfsShop.Lib.Decimal

namespace CfsShop

/-! ## Numbers as text -/

/-- What `Integer.parseInt` and `Long.parseLong` share: a sign or none, then digits. `inRange` is
what fits the type. -/
def parseSigned (inRange : Int → Option Int) : List Char → Option Int
  | '-' :: cs => (Long.digits cs).bind fun n => inRange (-n)
  | '+' :: cs => (Long.digits cs).bind fun n => inRange n
  | cs => (Long.digits cs).bind fun n => inRange n

theorem Long.parseLong_eq (s : String) : parseLong s = parseSigned inRange s.toList := rfl

namespace Integer

/-- An `int`, or an overflow. -/
def inRange (n : Int) : Option Int := if -2 ^ 31 ≤ n ∧ n < 2 ^ 31 then some n else none

/-- `Integer.parseInt`, `none` where it throws. -/
def parseInt (s : String) : Option Int := parseSigned inRange s.toList

end Integer

theorem Character.digit_of_isDigit (c : Char) (h : c.isDigit = true) :
    digit c = some (c.toNat - '0'.toNat) := by
  rw [Char.isDigit_iff_toNat] at h
  change 48 ≤ c.toNat ∧ c.toNat ≤ 57 at h
  have hc : 48 ≤ c.toNat ∧ c.toNat < 58 := by omega
  simp [digit, zeros, hc]

theorem Long.digits_toDigits (n : Nat) : digits (Nat.toDigits 10 n) = some n := by
  have hdigits : ∀ c ∈ Nat.toDigits 10 n, c.isDigit = true := fun c hc =>
    Nat.isDigit_of_mem_toDigits (by omega) (by omega) hc
  have hread := Decimal.foldlM_digit Character.digit_of_isDigit hdigits 0
  rw [Nat.ofDigitChars_ten_toDigits] at hread
  rw [← hread]
  cases h : Nat.toDigits 10 n with
  | nil => exact absurd h Nat.toDigits_ne_nil
  | cons c cs => rfl

/-- What is written in decimal is read back, if it fits. -/
theorem parseSigned_toString (inRange : Int → Option Int) (n : Int) :
    parseSigned inRange (toString n).toList = inRange n := by
  rw [Int.toString_eq_repr, Decimal.toList_repr]
  cases n with
  | ofNat m =>
    simp only
    rw [parseSigned]
    · rw [Long.digits_toDigits]
      rfl
    · intro cs h
      exact Decimal.minus_not_mem_digits m (h ▸ List.mem_cons_self)
    · intro cs h
      have := Nat.isDigit_of_mem_toDigits (c := '+') (by omega) (by omega) (h ▸ List.mem_cons_self)
      exact absurd this (by decide)
  | negSucc m =>
    simp only [parseSigned, Long.digits_toDigits]
    rfl

/-! ## The units of a text -/

namespace JString

/-- A text as a reader of numbers sees it, by `charAt`. Half of a surrogate pair is no digit, and
what `Char.ofNat` has in its place is none either. -/
def seen (s : JString) : String := .ofList (s.map fun c => .ofNat c.toNat)

theorem seen_chars {s : String} (h : ∀ c ∈ s.toList, c.toNat < 0x10000) :
    seen (MD5Util.chars s) = s := by
  rw [← String.toList_inj, seen, String.toList_ofList, MD5Util.chars]
  generalize s.toList = cs at h
  induction cs with
  | nil => rfl
  | cons c cs ih =>
    rw [List.forall_mem_cons] at h
    have hc : Char.ofNat c.toNat.toUInt16.toNat = c := by
      rw [Nat.toUInt16, UInt16.toNat_ofNat', Nat.mod_eq_of_lt h.1, Char.ofNat_toNat]
    rw [List.flatMap_cons, if_pos h.1, List.singleton_append, List.map_cons, hc, ih h.2]

/-- `"" + value`, of an `int` or a `long`. -/
def ofInt (n : Int) : JString := MD5Util.chars (toString n)

theorem seen_ofInt (n : Int) : seen (ofInt n) = toString n := by
  refine seen_chars fun c hc => ?_
  rcases Decimal.minus_or_isDigit_of_mem hc with rfl | hdigit
  · decide
  · rw [Char.isDigit_iff_toNat] at hdigit
    exact hdigit.2.trans_lt (by decide)

theorem ofInt_ne_nil (n : Int) : ofInt n ≠ [] := by
  intro h
  have hseen := seen_ofInt n
  rw [h] at hseen
  have hparse := parseSigned_toString some n
  rw [← hseen] at hparse
  cases hparse

end JString

namespace UtilObject

inductive Ex
  | nullPointer
  | numberFormat
  /-- `JSONException` -/
  | json (msg : String)
  deriving DecidableEq, Repr

def Integer.valueOf (s : JString) : Except Ex Int32 :=
  match Integer.parseInt s.seen with
  | some n => .ok (.ofInt n)
  | none => .error .numberFormat

def Long.valueOf (s : JString) : Except Ex Int64 :=
  match Long.parseLong s.seen with
  | some n => .ok (.ofInt n)
  | none => .error .numberFormat

/-- Every `int`, down to `Integer.MIN_VALUE`. -/
theorem Integer.valueOf_ofInt (n : Int32) : Integer.valueOf (.ofInt n.toInt) = .ok n := by
  have hrange : Integer.inRange n.toInt = some n.toInt := if_pos ⟨n.le_toInt, n.toInt_lt⟩
  rw [Integer.valueOf, JString.seen_ofInt, Integer.parseInt, parseSigned_toString, hrange]
  simp only [Int32.ofInt_toInt]

theorem Long.valueOf_ofInt (n : Int64) : Long.valueOf (.ofInt n.toInt) = .ok n := by
  have hrange : Long.inRange n.toInt = some n.toInt := if_pos ⟨n.le_toInt, n.toInt_lt⟩
  rw [Long.valueOf, JString.seen_ofInt, Long.parseLong_eq, parseSigned_toString, hrange]
  simp only [Int64.ofInt_toInt]

/-! ## Values, their classes and fastjson -/

/-- An object. `B` are the beans: whatever is no `Integer`, `Long` or `String`. -/
inductive Value (B : Type)
  | integer (value : Int32)
  | long (value : Int64)
  | string (value : JString)
  | bean (value : B)
  deriving DecidableEq, Repr

/-- The classes told apart; `C` are those of the beans. -/
inductive Class (C : Type)
  /-- `int.class` -/
  | int
  | Integer
  | String
  /-- `long.class` -/
  | long
  | Long
  | bean (c : C)
  deriving DecidableEq, Repr

/-- What fastjson is called for. `J` is its `JSONObject`. -/
structure Fastjson (B C J : Type) where
  toJSONString : B → JString
  parseObject : JString → Except Ex (Option J)
  toJavaObject : Option J → C → Except Ex (Option B)

variable {B C J : Type}

/-- `getClass`, given that of the beans. No object is of a primitive class. -/
def Value.getClass (getClass : B → C) : Value B → Class C
  | integer _ => .Integer
  | long _ => .Long
  | string _ => .String
  | bean b => .bean (getClass b)

/-- What is relied on: a bean is written as a text that is not empty, and comes back from it. -/
structure Fastjson.Faithful (json : Fastjson B C J) (getClass : B → C) : Prop where
  ne_nil : ∀ b, json.toJSONString b ≠ []
  roundTrip : ∀ b, (do json.toJavaObject (← json.parseObject (json.toJSONString b)) (getClass b)) =
    .ok (some b)

def beanToString (json : Fastjson B C J) : Option (Value B) → Option JString
  | none => none
  | some (.integer value) => some (.ofInt value.toInt)
  | some (.string value) => some value
  | some (.long value) => some (.ofInt value.toInt)
  | some (.bean value) => some (json.toJSONString value)

def stringToBean (json : Fastjson B C J) (str : Option JString) (clazz : Option (Class C)) :
    Except Ex (Option (Value B)) :=
  match str, clazz with
  | some str, some clazz =>
    if str.length ≤ 0 then return none
    else match clazz with
      | .int | .Integer => return some (.integer (← Integer.valueOf str))
      | .String => return some (.string str)
      | .long | .Long => return some (.long (← Long.valueOf str))
      | .bean c => return (← json.toJavaObject (← json.parseObject str) c).map .bean
  | _, _ => return none

/-! ## There and back -/

variable {json : Fastjson B C J} {getClass : B → C} {v w : Value B}

/-- A text that is not empty is read by the class alone. -/
theorem stringToBean_of_ne_nil {str : JString} (h : str ≠ []) (clazz : Class C) :
    stringToBean json (some str) (some clazz) = match clazz with
      | .int | .Integer => return some (.integer (← Integer.valueOf str))
      | .String => return some (.string str)
      | .long | .Long => return some (.long (← Long.valueOf str))
      | .bean c => return (← json.toJavaObject (← json.parseObject str) c).map .bean := by
  have hlen : ¬ str.length ≤ 0 := by rwa [Nat.le_zero, List.length_eq_zero_iff]
  simp only [stringToBean, if_neg hlen]

theorem stringToBean_beanToString (hj : json.Faithful getClass) (hv : v ≠ .string []) :
    stringToBean json (beanToString json (some v)) (some (v.getClass getClass)) = .ok (some v) := by
  cases v with
  | integer n =>
    rw [beanToString, stringToBean_of_ne_nil (JString.ofInt_ne_nil _), Value.getClass]
    simp only [Integer.valueOf_ofInt]
    rfl
  | long n =>
    rw [beanToString, stringToBean_of_ne_nil (JString.ofInt_ne_nil _), Value.getClass]
    simp only [Long.valueOf_ofInt]
    rfl
  | string s =>
    have hs : s ≠ [] := fun h => hv (congrArg Value.string h)
    rw [beanToString, stringToBean_of_ne_nil hs, Value.getClass]
    rfl
  | bean b =>
    have hb := hj.roundTrip b
    rw [beanToString, stringToBean_of_ne_nil (hj.ne_nil b), Value.getClass]
    simp only
    rw [← bind_assoc, hb]
    rfl

theorem eq_string_of_getClass (h : v.getClass getClass = .String) : ∃ s, v = .string s := by
  cases v with
  | string s => exact ⟨s, rfl⟩
  | integer n => cases h
  | long n => cases h
  | bean b => cases h

/-- Within a class two values never share a text: a string is its text, and any other value can be
read back. -/
theorem beanToString_injective (hj : json.Faithful getClass)
    (hc : v.getClass getClass = w.getClass getClass)
    (h : beanToString json (some v) = beanToString json (some w)) : v = w := by
  by_cases hs : w.getClass getClass = .String
  · obtain ⟨s, rfl⟩ := eq_string_of_getClass (hc.trans hs)
    obtain ⟨s', rfl⟩ := eq_string_of_getClass hs
    exact congrArg Value.string (Option.some.inj h)
  · have hv : v ≠ .string [] := fun e => hs (by rw [← hc, e, Value.getClass])
    have hw : w ≠ .string [] := fun e => hs (by rw [e, Value.getClass])
    have hread := stringToBean_beanToString hj hv
    rw [h, hc, stringToBean_beanToString hj hw] at hread
    exact (Option.some.inj (Except.ok.inj hread)).symm

/-- **Values survive the text.** Whatever is written is read back as it was by its own class: every
`Integer` and every `Long`, every bean, and every `String` but the empty one. An empty text stands
for no value, so the empty string comes back as null. Still no two values of a class are written
alike. -/
theorem values_survive (json : Fastjson B C J) (getClass : B → C) (hj : json.Faithful getClass) :
    (∀ v : Value B, v ≠ .string [] →
        stringToBean json (beanToString json (some v)) (some (v.getClass getClass)) =
          .ok (some v)) ∧
      stringToBean json (beanToString json (some (.string [])))
          (some ((Value.string []).getClass getClass)) = .ok none ∧
      ∀ v w : Value B, v.getClass getClass = w.getClass getClass →
        beanToString json (some v) = beanToString json (some w) → v = w :=
  ⟨fun _ hv => stringToBean_beanToString hj hv, rfl, fun _ _ hc h => beanToString_injective hj hc h⟩

/-! ## The queue -/

/-- The body `MQSender.sendMiaoshaMessage` puts into its message. `getBytes` is `String.getBytes`,
with the platform's charset. -/
def sentBody (json : Fastjson B C J) (getBytes : JString → List UInt8) (value : Option (Value B)) :
    Except Ex (List UInt8) :=
  match beanToString json value with
  | none => throw .nullPointer
  | some string => return getBytes string

/-- The message `MQReceiver.consumeMessage` makes of a body. `newString` is `new String(bytes)`. -/
def receivedMessage (json : Fastjson B C J) (newString : List UInt8 → JString) (clazz : C)
    (bytes : List UInt8) : Except Ex (Option (Value B)) :=
  stringToBean json (some (newString bytes)) (some (.bean clazz))

/-- What is consumed is what was sent, wherever the two charsets carry the text: a queue of messages
stands for the queue of their bytes. -/
theorem receivedMessage_sentBody (hj : json.Faithful getClass) {getBytes : JString → List UInt8}
    {newString : List UInt8 → JString} (b : B)
    (hcharset : newString (getBytes (json.toJSONString b)) = json.toJSONString b) :
    (do receivedMessage json newString (getClass b) (← sentBody json getBytes (some (.bean b)))) =
      .ok (some (.bean b)) := by
  have hread := stringToBean_beanToString (v := .bean b) hj (by simp)
  have hsent : sentBody json getBytes (some (.bean b)) = .ok (getBytes (json.toJSONString b)) := rfl
  rw [hsent]
  change receivedMessage json newString (getClass b) (getBytes (json.toJSONString b)) = _
  rw [receivedMessage, hcharset]
  exact hread

/-! ## A message without a user -/

/-- How fastjson writes a `MiaoshaMessage` with no user, of which the `goodsId` is left, and what it
reads in that text: the `JSONObject` is that one entry. -/
def goodsMessage : Fastjson Int64 Unit Int64 where
  toJSONString goodsId := MD5Util.chars "\x7b\"goodsId\":" ++ JString.ofInt goodsId.toInt ++
    MD5Util.chars "\x7d"
  parseObject s := do return some (← Long.valueOf (s.drop 11).dropLast)
  toJavaObject o _ := .ok o

theorem goodsMessage_faithful : goodsMessage.Faithful fun _ => () where
  ne_nil goodsId h := by simp [goodsMessage, MD5Util.chars] at h
  roundTrip goodsId := by
    have hdigits : ((goodsMessage.toJSONString goodsId).drop 11).dropLast =
        JString.ofInt goodsId.toInt := by
      simp [goodsMessage, MD5Util.chars]
    simp only [goodsMessage] at hdigits ⊢
    rw [hdigits, Long.valueOf_ofInt]
    rfl

theorem values_survive_least_and_message :
    stringToBean goodsMessage (beanToString goodsMessage (some (.integer Int32.minValue)))
        (some .Integer) = .ok (some (.integer Int32.minValue)) ∧
      stringToBean goodsMessage (beanToString goodsMessage (some (.bean 7))) (some (.bean ())) =
        .ok (some (.bean 7)) := by
  have h := (values_survive goodsMessage (fun _ => ()) goodsMessage_faithful).1
  exact ⟨h (.integer Int32.minValue) (by decide), h (.bean 7) (by decide)⟩

/-- The empty string does not come back. -/
theorem empty_string_lost :
    goodsMessage.Faithful (fun _ => ()) ∧
      stringToBean goodsMessage (beanToString goodsMessage (some (.string [])))
          (some (Value.getClass (fun _ : Int64 => ()) (.string []))) ≠ .ok (some (.string [])) := by
  refine ⟨goodsMessage_faithful, fun h => ?_⟩
  cases h

end UtilObject

end CfsShop
