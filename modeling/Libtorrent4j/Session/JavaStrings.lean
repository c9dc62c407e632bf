import Mathlib.Data.List.TakeWhile
import Mathlib.Tactic

/-!
# Strings across JNI

A Java `String` is a sequence of UTF-16 units, a `std::string` one of bytes. What goes down is
the bytes of `GetStringUTFChars` up to the first NUL, and what comes up is `NewStringUTF` of the
bytes up to the first NUL (`c_str()`). So every Java string comes back as it was
(`toJava_toNative`), but **not every native string has a Java name**: one with a NUL in it, or
with bytes that are no modified UTF-8, comes up under the name of another one, or of none.

`Jni` is what the bindings rely on, `modifiedUtf8` the encoding as it is.
-/

namespace Libtorrent4j
namespace Session

/-- A Java `String`, by its units. -/
abbrev JavaString := List UInt16

/-- A `std::string`. -/
abbrev NativeString := List UInt8

/-- The two functions of JNI. What `NewStringUTF` makes of other bytes than these is left to the
    machine. -/
structure Jni where
  getStringUTFChars : JavaString → NativeString
  newStringUTF : NativeString → JavaString
  /-- Modified UTF-8 has two bytes for U+0000. -/
  no_nul : ∀ s, 0 ∉ getStringUTFChars s
  reads_back : ∀ s, newStringUTF (getStringUTFChars s) = s

namespace Jni

/-- What a `const char*` says of the bytes it points to. -/
def cString (bytes : NativeString) : NativeString := bytes.takeWhile (· ≠ 0)

variable (jni : Jni)

/-- `std::string arg_str(GetStringUTFChars(jarg, 0))`. -/
def toNative (s : JavaString) : NativeString := cString (jni.getStringUTFChars s)

/-- `NewStringUTF(result->c_str())`. -/
def toJava (bytes : NativeString) : JavaString := jni.newStringUTF (cString bytes)

/-- The bytes of some Java string. -/
def Named (bytes : NativeString) : Prop := jni.toNative (jni.toJava bytes) = bytes

instance (bytes : NativeString) : Decidable (jni.Named bytes) :=
  inferInstanceAs (Decidable (_ = _))

theorem cString_eq_self {bytes : NativeString} (h : 0 ∉ bytes) : cString bytes = bytes := by
  rw [cString, List.takeWhile_eq_self_iff]
  intro b hb
  exact decide_eq_true (ne_of_mem_of_not_mem hb h)

theorem toNative_eq (s : JavaString) : jni.toNative s = jni.getStringUTFChars s :=
  cString_eq_self (jni.no_nul s)

@[simp] theorem toJava_toNative (s : JavaString) : jni.toJava (jni.toNative s) = s := by
  rw [toJava, toNative_eq, cString_eq_self (jni.no_nul s), jni.reads_back]

theorem named_toNative (s : JavaString) : jni.Named (jni.toNative s) := by
  rw [Named, toJava_toNative]

variable {jni}

/-- A named key is asked for under its name, and under no other one. -/
theorem Named.toJava_eq_iff {bytes : NativeString} (h : jni.Named bytes) (s : JavaString) :
    jni.toJava bytes = s ↔ bytes = jni.toNative s := by
  constructor
  · rintro rfl
    exact h.symm
  · rintro rfl
    exact jni.toJava_toNative s

theorem ne_toNative_of_not_named {bytes : NativeString} (h : ¬ jni.Named bytes) (s : JavaString) :
    bytes ≠ jni.toNative s := by
  rintro rfl
  exact h (jni.named_toNative s)

/-! ## Modified UTF-8 -/

/-- One byte for U+0001 to U+007F, two for U+0000 and up to U+07FF, three for any other unit, the
    halves of a surrogate pair among them. -/
def encodeUnit (u : UInt16) : NativeString :=
  if 0 < u.toNat ∧ u.toNat < 0x80 then [UInt8.ofNat u.toNat]
  else if u.toNat < 0x800 then
    [UInt8.ofNat (0xC0 + u.toNat / 64), UInt8.ofNat (0x80 + u.toNat % 64)]
  else
    [UInt8.ofNat (0xE0 + u.toNat / 4096), UInt8.ofNat (0x80 + u.toNat / 64 % 64),
      UInt8.ofNat (0x80 + u.toNat % 64)]

/-- The first byte of a unit says how many there are; a unit that is cut off is dropped. -/
def decodeUnits : NativeString → JavaString
  | [] => []
  | a :: rest =>
      if a.toNat < 0x80 then UInt16.ofNat a.toNat :: decodeUnits rest
      else if a.toNat < 0xE0 then
        match rest with
        | [] => []
        | b :: rest => UInt16.ofNat (a.toNat % 32 * 64 + b.toNat % 64) :: decodeUnits rest
      else
        match rest with
        | b :: c :: rest =>
            UInt16.ofNat (a.toNat % 16 * 4096 + b.toNat % 64 * 64 + c.toNat % 64) ::
              decodeUnits rest
        | _ => []

theorem decodeUnits_encodeUnit (u : UInt16) (rest : NativeString) :
    decodeUnits (encodeUnit u ++ rest) = u :: decodeUnits rest := by
  have hu : u.toNat < 65536 := u.toNat_lt
  have hunit : ∀ n, n = u.toNat → UInt16.ofNat n = u := by
    rintro n rfl
    exact UInt16.ofNat_toNat
  have hbyte : ∀ n < 256, (UInt8.ofNat n).toNat = n := fun n hn => UInt8.toNat_ofNat_of_lt' hn
  unfold encodeUnit
  split
  · rw [List.singleton_append, decodeUnits.eq_def]
    dsimp only
    rw [hbyte _ (by omega), if_pos (by omega), hunit _ rfl]
  split
  · have ha : 0xC0 + u.toNat / 64 < 256 := by omega
    rw [List.cons_append, List.singleton_append, decodeUnits, hbyte _ ha, if_neg (by omega),
      if_pos (by omega), hbyte _ (by omega), hunit _ (by omega)]
  · have ha : 0xE0 + u.toNat / 4096 < 256 := by omega
    rw [List.cons_append, List.cons_append, List.singleton_append, decodeUnits, hbyte _ ha,
      if_neg (by omega), if_neg (by omega)]
    dsimp only
    rw [hbyte _ (by omega), hbyte _ (by omega), hunit _ (by omega)]

theorem zero_not_mem_encodeUnit (u : UInt16) : 0 ∉ encodeUnit u := by
  have hu : u.toNat < 65536 := u.toNat_lt
  have hbyte : ∀ n, 0 < n → n < 256 → (0 : UInt8) ≠ UInt8.ofNat n := by
    intro n hpos hn heq
    have := congrArg UInt8.toNat heq
    rw [UInt8.toNat_ofNat_of_lt' hn] at this
    exact hpos.ne this
  unfold encodeUnit
  split
  · exact fun hmem => hbyte _ (by omega) (by omega) (List.mem_singleton.mp hmem)
  split
  · simp only [List.mem_cons, List.not_mem_nil, or_false, not_or]
    exact ⟨hbyte _ (by omega) (by omega), hbyte _ (by omega) (by omega)⟩
  · simp only [List.mem_cons, List.not_mem_nil, or_false, not_or]
    exact ⟨hbyte _ (by omega) (by omega), hbyte _ (by omega) (by omega),
      hbyte _ (by omega) (by omega)⟩

/-- The encoding of JNI, with a decoder that drops what it cannot read. -/
def modifiedUtf8 : Jni where
  getStringUTFChars s := s.flatMap encodeUnit
  newStringUTF := decodeUnits
  no_nul s hmem := by
    obtain ⟨u, -, hu⟩ := List.mem_flatMap.mp hmem
    exact zero_not_mem_encodeUnit u hu
  reads_back s := by
    induction s with
    | nil => rfl
    | cons u rest ih => rw [List.flatMap_cons, decodeUnits_encodeUnit, ih]

/-- U+0000 goes down as two bytes, and a native NUL ends what comes up. -/
example : modifiedUtf8.toNative [0x61, 0, 0x20AC] = [0x61, 0xC0, 0x80, 0xE2, 0x82, 0xAC] ∧
    modifiedUtf8.toJava [0x61, 0, 0x62] = [0x61] := by decide

end Jni

end Session
end Libtorrent4j
