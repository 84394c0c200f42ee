import Tensorium.Wallet.Payment

/-! # What the pool reads from an answer

    `pay_miner` tells the answers to a broadcast apart by their text: an error
    that contains a certain phrase counts as a payment. Two of the errors of the
    node do, and only these.
-/

namespace Tensorium

/-- `str::contains`. -/
def containsText (s text : String) : Bool :=
  s.toList.tails.any fun tail => text.toList.isPrefixOf tail

/-- A text with a character that a string lacks is not in the string. -/
theorem containsText_of_char {s text : String} {c : Char} (htext : c ∈ text.toList)
    (hs : c ∉ s.toList) : containsText s text = false := by
  unfold containsText
  rw [List.any_eq_false]
  intro tail htail hprefix
  apply hs
  have hsuffix : tail <:+ s.toList := (List.mem_tails _ _).mp htail
  exact hsuffix.subset ((List.isPrefixOf_iff_prefix.mp hprefix).subset htext)

/-- A number is printed in digits. -/
theorem notMem_toString {n : Nat} {c : Char} (h : c.isDigit = false) : c ∉ (toString n).toList := by
  intro hmem
  have hrepr : (toString n).toList = Nat.toDigits 10 n := Nat.toList_repr
  rw [hrepr] at hmem
  rw [Nat.isDigit_of_mem_toDigits (by decide) (by decide) hmem] at h
  cases h

theorem notMem_append {c : Char} {s t : String} (hs : c ∉ s.toList) (ht : c ∉ t.toList) :
    c ∉ (s ++ t).toList := by
  rw [String.toList_append, List.mem_append]
  rintro (h | h)
  · exact hs h
  · exact ht h

/-- The characters of a literal are those it is written with. -/
theorem mem_literal {cs : List Char} {c : Char} : c ∈ (String.ofList cs).toList ↔ c ∈ cs := by
  rw [String.toList_ofList]

theorem notMem_literal {cs : List Char} {c : Char} (h : c ∉ cs) :
    c ∉ (String.ofList cs).toList := mt mem_literal.mp h

/-- Whether `pay_miner` takes the answer to a broadcast for a payment: any
    success, and an error with a certain text. -/
def countsAsPaid : Except NodeError (Hash256 × Nat) → Bool
  | .ok _ => true
  | .error error => containsText (broadcastError error) "already in the mempool"

/-- A letter of the text that is neither in the message of an error nor in what
    the wallet program prints around it. -/
theorem countsAsPaid_of_char {error : NodeError} (c : Char)
    (htext : c ∈ "already in the mempool".toList)
    (hframe : c ∉ "error: RPC error 500: \x7b\n  \"error\": \"".toList ∧ c ∉ "\"\n\x7d".toList)
    (h : c ∉ error.message.toList) : countsAsPaid (.error error) = false :=
  containsText_of_char htext (notMem_append (notMem_append hframe.1 h) hframe.2)

theorem countsAsPaid_of_letter {error : NodeError}
    (h : 'y' ∉ error.message.toList ∨ 'm' ∉ error.message.toList) :
    countsAsPaid (.error error) = false := by
  rcases h with h | h
  · exact countsAsPaid_of_char 'y' (mem_literal.mpr (by decide))
      ⟨notMem_literal (by decide), notMem_literal (by decide)⟩ h
  · exact countsAsPaid_of_char 'm' (mem_literal.mpr (by decide))
      ⟨notMem_literal (by decide), notMem_literal (by decide)⟩ h

theorem countsAsPaid_feeTooLow (fee min : UInt64) :
    countsAsPaid (.error (.mempool (.feeTooLow fee min))) = false := by
  apply countsAsPaid_of_char 'd' (mem_literal.mpr (by decide))
    ⟨notMem_literal (by decide), notMem_literal (by decide)⟩
  unfold NodeError.message MempoolError.message
  have hfee : 'd' ∉ (toString fee.toNat).toList := notMem_toString (by decide)
  have hmin : 'd' ∉ (toString min.toNat).toList := notMem_toString (by decide)
  exact notMem_append (notMem_append (notMem_append (notMem_append
    (notMem_literal (by decide)) hfee) (notMem_literal (by decide))) hmin)
    (notMem_literal (by decide))

theorem countsAsPaid_mempoolFull (fee : UInt64) (max : Nat) :
    countsAsPaid (.error (.mempool (.mempoolFull fee max))) = false := by
  apply countsAsPaid_of_char 'a' (mem_literal.mpr (by decide))
    ⟨notMem_literal (by decide), notMem_literal (by decide)⟩
  unfold NodeError.message MempoolError.message
  have hfee : 'a' ∉ (toString fee.toNat).toList := notMem_toString (by decide)
  have hmax : 'a' ∉ (toString max).toList := notMem_toString (by decide)
  exact notMem_append (notMem_append (notMem_append (notMem_append
    (notMem_literal (by decide)) hmax) (notMem_literal (by decide))) hfee)
    (notMem_literal (by decide))

theorem UtxoError.message_letter (e : UtxoError) :
    'y' ∉ e.message.toList ∨ 'm' ∉ e.message.toList := by
  cases e <;> first
    | exact Or.inl (notMem_literal (by decide))
    | exact Or.inr (notMem_literal (by decide))

/-- Only the text of one error on a block has both letters. -/
theorem ValidationError.message_letter {e : ValidationError} (h : e ≠ .unexpectedDifficulty) :
    'y' ∉ e.message.toList ∨ 'm' ∉ e.message.toList := by
  cases e <;> first
    | exact absurd rfl h
    | exact Or.inl (notMem_literal (by decide))

/-- Of all errors, the pool takes two for a payment: that the transaction is in the
    mempool, and that it conflicts with one that is. -/
theorem countsAsPaid_error_iff (error : NodeError) :
    countsAsPaid (.error error) = true ↔
      error = .mempool .alreadyKnown ∨ error = .mempool .pendingConflict := by
  cases error with
  | state e =>
    apply iff_of_false
    · rw [Bool.not_eq_true]
      by_cases hdifficulty : e = .validation .unexpectedDifficulty
      · -- This text has all letters of the other one.
        subst hdifficulty
        decide +kernel
      · apply countsAsPaid_of_letter
        cases e with
        | utxo e => exact e.message_letter
        | validation e => exact e.message_letter fun heq => hdifficulty (heq ▸ rfl)
        | _ => first
          | exact Or.inl (notMem_literal (by decide))
          | exact Or.inr (notMem_literal (by decide))
    · simp
  | mempool e =>
    cases e with
    | feeTooLow fee min => simp [countsAsPaid_feeTooLow]
    | mempoolFull fee max => simp [countsAsPaid_mempoolFull]
    | invalidTransaction e =>
      have hletter : countsAsPaid (.error (.mempool (.invalidTransaction e))) = false :=
        countsAsPaid_of_letter e.message_letter
      simp [hletter]
    | coinbaseNotAllowed =>
      have hletter : countsAsPaid (.error (.mempool .coinbaseNotAllowed)) = false :=
        countsAsPaid_of_letter (Or.inl (notMem_literal (by decide)))
      simp [hletter]
    | _ => decide +kernel

end Tensorium
