import ScriptTree.Text.Measure

/-! # Texts as bytes

The bytes of a text are those of its characters, one after the other, and no character's bytes begin
with those of another. So texts that agree on some bytes agree on the characters that lie within. -/
namespace ScriptTree.Text

/-- The bytes of a text in UTF-8. -/
def encode (cs : List Char) : List UInt8 := cs.flatMap String.utf8EncodeChar

theorem encode_cons (c : Char) (cs : List Char) :
    encode (c :: cs) = String.utf8EncodeChar c ++ encode cs :=
  List.flatMap_cons

theorem encode_append (as bs : List Char) : encode (as ++ bs) = encode as ++ encode bs :=
  List.flatMap_append

theorem length_encode (cs : List Char) : (encode cs).length = bytes cs := by
  induction cs with
  | nil => rfl
  | cons c cs ih => rw [encode_cons, List.length_append, String.length_utf8EncodeChar, ih, bytes]

theorem toUTF8_toList (s : String) : s.toUTF8.data.toList = encode s.toList := by
  rw [String.toUTF8_eq_toByteArray]
  conv => lhs; rw [← String.ofList_toList (s := s), String.toByteArray_ofList]
  simp [List.utf8Encode, encode]

theorem utf8ByteSize_eq (s : String) : s.utf8ByteSize = bytes s.toList := by
  rw [← length_encode, ← toUTF8_toList]
  rfl

/-- The first character of a text is known from its bytes. -/
theorem utf8EncodeChar_append_inj {c d : Char} {as bs : List UInt8}
    (h : String.utf8EncodeChar c ++ as = String.utf8EncodeChar d ++ bs) : c = d := by
  have decode (c : Char) (as : List UInt8) :
      (String.utf8EncodeChar c ++ as).toByteArray.utf8DecodeChar? 0 = some c := by
    rw [List.toByteArray_append]
    exact ByteArray.utf8DecodeChar?_utf8EncodeChar_append
  exact Option.some.inj ((decode c as).symm.trans (h ▸ decode d bs))

/-- Whole characters at the front of the bytes are characters at the front of the text. -/
theorem prefix_of_encode_prefix {as cs : List Char} (h : encode as <+: encode cs) : as <+: cs := by
  induction as generalizing cs with
  | nil => exact List.nil_prefix
  | cons a as ih =>
    obtain ⟨more, hmore⟩ := h
    rw [encode_cons, List.append_assoc] at hmore
    cases cs with
    | nil =>
      have hlen := congrArg List.length hmore
      have hpos := a.utf8Size_pos
      rw [List.length_append, String.length_utf8EncodeChar] at hlen
      simp only [encode, List.flatMap_nil, List.length_nil] at hlen
      omega
    | cons c cs =>
      rw [encode_cons] at hmore
      obtain rfl := utf8EncodeChar_append_inj hmore
      exact List.cons_prefix_cons.2 ⟨rfl, ih ⟨more, List.append_cancel_left hmore⟩⟩

/-- Texts that agree on some bytes begin with the same whole characters. -/
theorem prefix_of_extract_eq {s t : String} {n : Nat}
    (h : s.toUTF8.extract 0 n = t.toUTF8.extract 0 n) {as : List Char} (hn : bytes as ≤ n)
    (has : as <+: s.toList) : as <+: t.toList := by
  have htake : (encode s.toList).take n = (encode t.toList).take n := by
    rw [← toUTF8_toList, ← toUTF8_toList]
    simpa [ByteArray.data_extract] using congrArg (·.data.toList) h
  obtain ⟨more, hmore⟩ := has
  refine prefix_of_encode_prefix (List.IsPrefix.trans ?_ (List.take_prefix n _))
  rw [← htake, ← hmore, encode_append]
  refine List.prefix_take_iff.2 ⟨List.prefix_append _ _, ?_⟩
  rw [length_encode]
  exact hn

end ScriptTree.Text
