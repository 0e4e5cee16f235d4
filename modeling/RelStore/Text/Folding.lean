import RelStore.Text.Basic

/-!
# Case folding

Some lower-case letters are variants of another one: the long s, the final sigma, the micro sign.
Folding sends each variant to its plain letter (Unicode 14), so that two lower-case letters are the
same ignoring case exactly when they fold to the same letter.
-/

namespace RelStore.Text

/-- The variants among the lower-case letters, each with its plain letter. -/
def variants : List (Nat × Nat) :=
  [(0xB5, 0x3BC), (0x131, 0x69), (0x17F, 0x73), (0x345, 0x3B9), (0x3C2, 0x3C3), (0x3D0, 0x3B2),
   (0x3D1, 0x3B8), (0x3D5, 0x3C6), (0x3D6, 0x3C0), (0x3F0, 0x3BA), (0x3F1, 0x3C1),
   (0x3F5, 0x3B5), (0x1C80, 0x432), (0x1C81, 0x434), (0x1C82, 0x43E), (0x1C83, 0x441),
   (0x1C84, 0x442), (0x1C85, 0x442), (0x1C86, 0x44A), (0x1C87, 0x463), (0x1C88, 0xA64B),
   (0x1E9B, 0x1E61), (0x1FBE, 0x3B9), (0x1FD3, 0x390), (0x1FE3, 0x3B0), (0xFB05, 0xFB06)]

/-- The plain letter of a lower-case letter; other code points fold to themselves. -/
def fold (c : CodePoint) : CodePoint :=
  match variants.lookup c.code with
  | some plain => .ofCode plain
  | none => c

end RelStore.Text
