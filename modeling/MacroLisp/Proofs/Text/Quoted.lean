import MacroLisp.Text.Quoted

namespace MacroLisp.Text.Quoted

variable {c : Char} {cs : List Char}

def isPlain (c : Char) : Bool := encodeChar c ≠ codePoint c

theorem encodeChar_of_isPlain (h : isPlain c = true) :
    (∃ e, encodeChar c = ['\\', e] ∧ decodeChar? e = some c) ∨ (encodeChar c = [c] ∧ c ≠ '"' ∧ c ≠ '\\') := by
  have hne : encodeChar c ≠ codePoint c := by simpa [isPlain] using h
  generalize ht : encodeChar c = t at hne ⊢
  unfold encodeChar at ht
  split at ht
  · exact .inl ⟨'0', ht.symm, rfl⟩
  · exact .inl ⟨'t', ht.symm, rfl⟩
  · exact .inl ⟨'r', ht.symm, rfl⟩
  · exact .inl ⟨'n', ht.symm, rfl⟩
  · exact .inl ⟨'"', ht.symm, rfl⟩
  · exact .inl ⟨'\\', ht.symm, rfl⟩
  · next hquote hbackslash =>
    split at ht
    · exact absurd ht.symm hne
    · exact .inr ⟨ht.symm, hquote, hbackslash⟩

theorem encode_cons (c : Char) (cs : List Char) : encode (c :: cs) = encodeChar c ++ encode cs := rfl

theorem decode_cons (h : c ≠ '\\') (cs : List Char) : decode (c :: cs) = c :: decode cs := by
  cases cs <;> simp [decode, h]

theorem decode_encode (h : cs.all isPlain = true) : decode (encode cs) = cs := by
  induction cs with
  | nil => rfl
  | cons c cs ih =>
    obtain ⟨hc, hcs⟩ : isPlain c = true ∧ cs.all isPlain = true := by simpa using h
    rcases encodeChar_of_isPlain hc with ⟨e, he, hd⟩ | ⟨he, -, hb⟩
    · rw [encode_cons, he, List.cons_append, List.singleton_append, decode, hd, ih hcs]
    · rw [encode_cons, he, List.singleton_append, decode_cons hb, ih hcs]

end MacroLisp.Text.Quoted
