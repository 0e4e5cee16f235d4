import RelStore.Text.Splitting

/-!
# Hosts in request targets

The authority of a target is a host, maybe with other things around it: what stands up to the last
`@` is about the user, and what follows the host after a colon is about the connection. An authority
with brackets in it must have an IPv6 address as its host, or an address of a later version, which
begins with a `v`; and no authority may hold characters that stand for the delimiters of a target.
-/

namespace RelStore.Http.Host

/-- Whether a text is a number below 256 without leading zeros. -/
def isOctet (cs : Text) : Bool :=
  !cs.isEmpty && cs.all CodePoint.isDigit && cs.length ≤ 3 &&
    (cs.length == 1 || cs.head? != some (.char '0')) &&
    cs.foldl (fun n c => 10 * n + c.digitValue) 0 ≤ 255

/-- Whether a text is an IPv4 address. -/
def isIPv4 (cs : Text) : Bool :=
  (cs.splitAll '.').length == 4 && (cs.splitAll '.').all isOctet

/-- Whether a text is a group of an IPv6 address. -/
def isGroup (cs : Text) : Bool := !cs.isEmpty && cs.length ≤ 4 && cs.all CodePoint.isHexDigit

/-- The groups of an IPv6 address. An IPv4 address at the end stands for two groups. -/
def groups? (cs : Text) : Option (List Text) :=
  let parts := cs.splitAll ':'
  match parts.getLast? with
  | some last =>
    if last.contains (.char '.') then
      if isIPv4 last then some (parts.dropLast ++ (["0", "0"] : List Text)) else none
    else some parts
  | none => none

/-- Whether groups with one gap, after `before` of them, are an address. The gap stands for at least
one group, and only it may be at an end. -/
def isGapped (parts : List Text) (before : Nat) : Bool :=
  let high := parts.take before
  let low := parts.drop (before + 1)
  let fits (ends : Bool) (groups : List Text) : Bool :=
    groups.all isGroup || (ends && groups == [[]])
  let count (groups : List Text) : Nat := if groups == [[]] then 0 else groups.length
  fits true high && fits true low && count high + count low < 8

/-- Whether groups are an IPv6 address: eight of them, or fewer with one gap. -/
def areGroups (parts : List Text) : Bool :=
  let inner := (List.range parts.length).filter fun i =>
    0 < i && i + 1 < parts.length && (parts[i]?.getD []).isEmpty
  match inner with
  | [] => parts.length == 8 && parts.all isGroup
  | [gap] => parts.length ≤ 9 && isGapped parts gap
  | _ => false

/-- Whether a text is an IPv6 address, which a zone may follow after a percent sign. -/
def isIPv6 (cs : Text) : Bool :=
  let address := cs.upTo '%'
  let zone := cs.onward '%'
  let zoneFits := zone.isEmpty || (1 < zone.length && !(zone.drop 1).contains (.char '%'))
  zoneFits && 3 ≤ (address.splitAll ':').length &&
    match groups? address with
    | some parts => areGroups parts
    | none => false

/-- Whether a text is an address of a later version: hexadecimal digits after the `v`, a dot, and
more. -/
def isLaterVersion (cs : Text) : Bool :=
  let digits := (cs.drop 1).takeWhile CodePoint.isHexDigit
  let rest := (cs.drop 1).dropWhile CodePoint.isHexDigit
  cs.head? == some (.char 'v') && !digits.isEmpty && rest.head? == some (.char '.') &&
    1 < rest.length

/-- Whether a text is an address that brackets may enclose. -/
def isBracketable (cs : Text) : Bool :=
  if cs.head? == some (.char 'v') then isLaterVersion cs else isIPv6 cs

/-- The host of an authority, unless something stands between the host and a bracket, where only a
colon may follow the closing one. -/
def ofAuthority? (authority : Text) : Option Text :=
  let place := ((authority.splitLast? '@').map (·.2)).getD authority
  match place.splitFirst? '[' with
  | none => some (place.upTo ':')
  | some ([], rest) =>
    match rest.splitFirst? ']' with
    | none => some rest
    | some (host, after) => if after.head?.all (· == .char ':') then some host else none
  | some _ => none

/-- Characters that are equivalent to texts with a delimiter of a target in them. -/
def delimiterForms : List Nat :=
  [0x2047, 0x2048, 0x2049, 0x2100, 0x2101, 0x2105, 0x2106, 0x2A74, 0xFE13, 0xFE16, 0xFE55, 0xFE56,
   0xFE5F, 0xFE6B, 0xFF03, 0xFF0F, 0xFF1A, 0xFF1F, 0xFF20]

/-- Whether an authority may stand in a target. Brackets must be there in both forms or in none. -/
def isValid (authority : Text) : Bool :=
  let opens := authority.contains (.char '[')
  let closes := authority.contains (.char ']')
  opens == closes && (!opens || (ofAuthority? authority).any isBracketable) &&
    authority.all fun c => !delimiterForms.contains c.code

end RelStore.Http.Host
