import RelStore.Proofs.Decimals
import RelStore.Proofs.Encoding
import RelStore.Proofs.Http.Framing
import RelStore.Proofs.References

/-!
# Headers as they are written

A header line of visible characters, written as the server itself writes one, is read as its name
and its value (`field?_headerLine`): the octets are decoded to the characters, and the blanks around
the two texts do not count. A number that a header writes in decimal is read as this number, unless
it has too many digits (`readInteger?_of_isDecimal`).
-/

namespace RelStore.Http

/-! ## Header lines -/

/-- Every response has octets. -/
theorem Response.octets_ne_nil (response : Response) : response.octets ≠ [] := by
  have hend : Text.encode "\r\n" ≠ [] := by decide
  exact List.append_ne_nil_of_left_ne_nil (List.append_ne_nil_of_right_ne_nil _ hend) _

/-- A header line is read as the name and the value that it is written with. -/
theorem field?_headerLine {name value : Text} (hname : name.Visible) (hvalue : value.Visible)
    (hnamed : name ≠ []) (hvalued : value ≠ []) (hcolon : CodePoint.char ':' ∉ name) :
    field? (lineText (Text.encode (Response.headerLine name value))) =
      some (Text.lower name, value) := by
  have hscalar : ∀ c ∈ Response.headerLine name value, c.IsScalar := by
    have hcolon : ∀ c ∈ (": " : Text), c.IsScalar := by decide
    have hend : ∀ c ∈ ("\r\n" : Text), c.IsScalar := by decide
    have hvisible {text : Text} (h : text.Visible) : ∀ c ∈ text, c.IsScalar :=
      fun c hc => .inl (Nat.lt_trans (h c hc).2 (by decide))
    rw [Response.headerLine, List.forall_mem_append, List.forall_mem_append,
      List.forall_mem_append]
    exact ⟨⟨⟨hvisible hname, hcolon⟩, hvisible hvalue⟩, hend⟩
  -- The blank after the colon stays, as the line begins and ends with visible characters.
  have hstrip : (Response.headerLine name value).strip = name ++ ": " ++ value := by
    refine Text.strip_padded [] "\r\n" (List.append_ne_nil_of_right_ne_nil _ hvalued) nofun
      (by decide) ?_ ?_
    · rw [List.append_assoc, List.head?_append_of_ne_nil name hnamed]
      exact fun _ hc => hname.not_isBlank (List.mem_of_mem_head? hc)
    · rw [List.getLast?_append_of_ne_nil _ hvalued]
      exact fun _ hc => hvalue.not_isBlank (List.mem_of_getLast? hc)
  have hsplit : Text.splitFirst? (name ++ ": " ++ value) ':' = some (name, .char ' ' :: value) := by
    rw [List.append_assoc]
    exact Text.splitFirst?_append (.char ' ' :: value) hcolon
  have hpadded : Text.strip (.char ' ' :: value) = value := by
    have hspace := hvalue.strip_padded [.char ' '] [] hvalued (by decide) nofun
    rwa [List.append_nil] at hspace
  rw [lineText, Text.Utf8.decode_encode hscalar, hstrip, field?, hsplit, Option.map_some]
  dsimp only
  rw [hname.strip_eq, hpadded]

/-! ## Numbers -/

/-- A text writes a number in decimal, maybe with zeros in front. -/
def IsDecimal (text : Text) (n : Nat) : Prop :=
  text ≠ [] ∧ (∀ c ∈ text, c.isDigit = true) ∧ ofDigits (text.map CodePoint.digitValue) = n

instance (text : Text) (n : Nat) : Decidable (IsDecimal text n) :=
  inferInstanceAs (Decidable (text ≠ [] ∧ (∀ c ∈ text, c.isDigit = true) ∧
    ofDigits (text.map CodePoint.digitValue) = n))

/-- A number in decimal is read, unless it has too many digits. -/
theorem readInteger?_of_isDecimal {text : Text} {n : Nat} (h : IsDecimal text n) :
    readInteger? text = if text.length ≤ digitLimit then some (n : Int) else none := by
  obtain ⟨hne, hdigits, rfl⟩ := h
  obtain ⟨c, rest, rfl⟩ := List.exists_cons_of_ne_nil hne
  rw [readInteger?, (visible_of_digits hdigits).strip_eq, takeSign_of_digits hdigits]
  dsimp only
  rw [digitRun_of_digits hdigits, List.map_cons]
  dsimp only
  rw [List.length_cons, List.length_map, ← List.length_cons (a := c)]
  rfl

end RelStore.Http
