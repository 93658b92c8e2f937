import Mathlib.Data.List.Basic

/-!
`scripts/validate_intent.sh` without `--verify-owner`, on an intent file and a schema file that
exist, under an awk whose `match` takes three arguments (any other stops at the first extraction
with a syntax error, and `set -e` makes that the end of the script). What follows the structural
checks only warns.
-/

namespace Mbsd.Scripts.ValidateIntent

open List

abbrev Text := List Char

/-! ## The patterns -/

/-- What is left of a text that starts with `s`. -/
def after (s t : Text) : Option Text :=
  if s.isPrefixOf t then some (t.drop s.length) else none

/-- `[ \t]*` -/
def blanks (t : Text) : Text := t.dropWhile fun c => c = ' ' || c = '\t'

def quoted (s : Text) : Text := '"' :: s ++ ['"']

/-- `"key"[ \t]*:` -/
def keyColon (key t : Text) : Option Text :=
  (after (quoted key) t).bind fun t => after [':'] (blanks t)

/-- `"key"[ \t]*:[ \t]*c` -/
def keyOpens (key : Text) (c : Char) (t : Text) : Option Text :=
  (keyColon key t).bind fun t => after [c] (blanks t)

/-- `"key"[ \t]*:[ \t]*"([^"]*)"`, with what stands for `g[1]`. -/
def keyString (key t : Text) : Option Text :=
  (keyOpens key '"' t).bind fun t =>
    if '"' ∈ t then some (t.takeWhile (· ≠ '"')) else none

/-- The leftmost place of a line at which a pattern matches. -/
def search (pattern : Text → Option Text) (line : Text) : Option Text :=
  line.tails.findSome? pattern

def found (pattern : Text → Option Text) (line : Text) : Bool := (search pattern line).isSome

/-! ## The extraction of scalars -/

/-- `extract_scalar` of a key at top level. -/
def extractScalar (key : String) (lines : List Text) : Text :=
  (lines.findSome? (search (keyString key.toList))).getD []

/-- `extract_scalar` of `obj.key`; `inObj` is `in_a` or `in_o`. -/
def extractScalarIn (obj key : String) : Bool → List Text → Text
  | _, [] => []
  | inObj, line :: lines =>
    if inObj || found (keyOpens obj.toList '{') line then
      match search (keyString key.toList) line with
      | some g => g
      | none => if '}' ∈ line then [] else extractScalarIn obj key true lines
    else extractScalarIn obj key false lines

/-! ## The signatures -/

/-- The lines, with their `NR`, that the scans of the signatures look at. -/
def sigLines : Bool → List (Text × Nat) → List (Text × Nat)
  | _, [] => []
  | inSigs, (line, nr) :: lines =>
    if found (keyOpens "signatures".toList '[') line then sigLines true lines
    else if inSigs && ']' ∈ line then []
    else if inSigs then (line, nr) :: sigLines true lines
    else sigLines false lines

def signatures (lines : List Text) : List (Text × Nat) := sigLines false (lines.zipIdx 1)

/-- `SIG_COUNT`, where a tally that was never touched is 0. -/
def sigCount (lines : List Text) : Nat :=
  let tally (key : String) := (signatures lines).countP fun l => found (keyColon key.toList) l.1
  let m := tally "role"
  let m := if tally "sig" < m then tally "sig" else m
  if tally "algo" < m then tally "algo" else m

/-- The values of a key in the lines of the signatures. -/
def sigValues (key : String) (lines : List Text) : List (Text × Nat) :=
  (signatures lines).filterMap fun l =>
    (search (keyString key.toList) l.1).map fun g => (g, l.2)

/-- One value in the scan for `MIN_SIG_LEN`. -/
def minSigStep (min : Nat) : Text × Nat → Nat
  | (g, nr) => if nr = 0 ∨ g.length < min then g.length else min

/-- `MIN_SIG_LEN`: `min` is not set before the scan, so that it counts as 0 there. -/
def minSigLen (lines : List Text) : Nat := (sigValues "sig" lines).foldl minSigStep 0

/-! ## The checks -/

/-- What is not of the script: the lines that the shell's `echo` writes for a word, and what awk
makes of the escapes in a `-v` assignment. -/
structure Host where
  echo : Text → List Text
  assign : Text → Text

def isDigits (t : Text) : Bool := t.all Char.isDigit

/-- `^1\.[0-9]+$` -/
def isVersion (t : Text) : Bool :=
  match after ['1', '.'] t with
  | some t => !t.isEmpty && isDigits t
  | none => false

/-- `^[a-f0-9]{64}$` -/
def isHash (t : Text) : Bool :=
  t.length = 64 && t.all fun c => c.isDigit || ('a' ≤ c && c ≤ 'f')

/-- A text in which `0` stands for any digit and every other character for itself. -/
def isShape (shape : String) (t : Text) : Bool :=
  t.map (fun c => if c.isDigit then '0' else c) = shape.toList

/-- The pattern of `updated_at`. -/
def isTime (t : Text) : Bool :=
  isShape "0000-00-00T00:00:00Z" t || isShape "0000-00-00T00:00:00+00:00" t ||
    isShape "0000-00-00T00:00:00-00:00" t

def requiredKeys : List String :=
  ["schemaVersion", "project", "auditor_spec", "owner", "signatures", "updated_at"]

def isRole (t : Text) : Bool := t = "Owner".toList || t = "Codex".toList

def isAlgo (t : Text) : Bool :=
  t = "ed25519".toList || t = "secp256k1".toList || t = "signify-ed25519".toList

/-- The checks in their order, each with the text of its failure. -/
def checks (host : Host) (lines : List Text) : List (Bool × String) :=
  let AV := extractScalarIn "auditor_spec" "version" false lines
  let AH := extractScalarIn "auditor_spec" "hash" false lines
  let lenOF := (host.assign (extractScalarIn "owner" "pubkey_fingerprint" false lines)).length
  let UA := extractScalar "updated_at" lines
  requiredKeys.map (fun k =>
    (lines.any (found (after (quoted k.toList))), "missing required top-level key: " ++ k)) ++
  [(!(extractScalar "schemaVersion" lines).isEmpty, "schemaVersion empty"),
    (!(extractScalar "project" lines).isEmpty, "project empty"),
    ((host.echo AV).any isVersion,
      "auditor_spec.version invalid: '" ++ String.ofList AV ++ "' (want ^1\\.[0-9]+$)"),
    ((host.echo AH).any isHash,
      "auditor_spec.hash invalid or missing: '" ++ String.ofList AH ++ "'"),
    (!(extractScalarIn "owner" "id" false lines).isEmpty, "owner.id empty"),
    (16 ≤ lenOF, "owner.pubkey_fingerprint too short: " ++ toString lenOF ++ " < 16"),
    ((host.echo UA).any isTime,
      "updated_at invalid: '" ++ String.ofList UA ++ "' (want e.g. 2026-01-01T00:00:00Z)"),
    -- Below 1 a tally was never touched, and awk prints it as the empty string.
    (1 ≤ sigCount lines, "signatures array must have >= 1 entry; found "),
    ((sigValues "role" lines).any (·.1 = "Owner".toList),
      "no role=Owner signature in signatures array"),
    ((sigValues "role" lines).all fun g => isRole g.1,
      "signature role outside allowed enum \x7bOwner,Codex\x7d"),
    (32 ≤ minSigLen lines, "signature too short: min=" ++ toString (minSigLen lines) ++ " < 32"),
    ((sigValues "algo" lines).all fun g => isAlgo g.1, "signature algo outside allowed enum")]

/-- The texts given to `fail`. -/
def failures (host : Host) (lines : List Text) : List String :=
  ((checks host lines).filter fun c => !c.1).map Prod.snd

/-- The exit code. -/
def validateIntent (host : Host) (lines : List Text) : Nat :=
  if (failures host lines).isEmpty then 0 else 1

/-! ## The documents -/

/-- A number stands as it is written. -/
inductive Json
  | null
  | bool (b : Bool)
  | num (literal : Text)
  | str (s : Text)
  | arr (xs : List Json)
  | obj (fields : List (Text × Json))

inductive Token
  | punct (c : Char)
  | str (s : Text)
  | word (t : Text)
deriving DecidableEq

/-- Where the lexer is in a line. -/
inductive Mode
  | between
  | word (t : Text)
  | str (s : Text)
  | escape (s : Text)
  | hex (s digits : Text)

def hexValue (digits : Text) : Nat :=
  digits.foldl (fun n c => 16 * n +
    (if c.isDigit then c.toNat - 48 else if 'a' ≤ c then c.toNat - 87 else c.toNat - 55)) 0

def isHex (c : Char) : Bool := c.isDigit || ('a' ≤ c && c ≤ 'f') || ('A' ≤ c && c ≤ 'F')

/-- The escapes of a string, without that of a quote. -/
def escapes : List (Char × Char) :=
  [('\\', '\\'), ('/', '/'), ('b', '\x08'), ('f', '\x0c'), ('n', '\n'), ('r', '\r'), ('t', '\t')]

/-- The tokens of a line. -/
def lex : Mode → Text → Option (List Token)
  | .between, [] => some []
  | .word t, [] => some [.word t]
  | _, [] => none
  | .str s, c :: cs =>
    if c = '"' then (lex .between cs).map (.str s :: ·)
    else if c = '\\' then lex (.escape s) cs
    else lex (.str (s ++ [c])) cs
  | .escape s, c :: cs =>
    if c = 'u' then lex (.hex s []) cs
    else (escapes.lookup c).bind fun e => lex (.str (s ++ [e])) cs
  | .hex s digits, c :: cs =>
    if isHex c then
      if digits.length = 3 then lex (.str (s ++ [Char.ofNat (hexValue (digits ++ [c]))])) cs
      else lex (.hex s (digits ++ [c])) cs
    else none
  | mode, c :: cs =>
    let done (ts : List Token) :=
      match mode with
      | .word t => .word t :: ts
      | _ => ts
    if c = '"' then (lex (.str []) cs).map done
    else if c ∈ "\x7b\x7d[]:,".toList then (lex .between cs).map fun ts => done (.punct c :: ts)
    else if c ∈ " \t\r".toList then (lex .between cs).map done
    else
      match mode with
      | .word t => lex (.word (t ++ [c])) cs
      | _ => lex (.word [c]) cs

/-- Lists of tokens with commas between them. -/
def commas : List (List Token) → List Token
  | [] => []
  | [ts] => ts
  | ts :: tss => ts ++ .punct ',' :: commas tss

mutual
def Json.tokens : Json → List Token
  | .null => [.word "null".toList]
  | .bool b => [.word (if b then "true" else "false").toList]
  | .num literal => [.word literal]
  | .str s => [.str s]
  | .arr xs => .punct '[' :: commas (tokensList xs) ++ [.punct ']']
  | .obj fields => .punct '\x7b' :: commas (tokensFields fields) ++ [.punct '\x7d']

def tokensList : List Json → List (List Token)
  | [] => []
  | x :: xs => x.tokens :: tokensList xs

def tokensFields : List (Text × Json) → List (List Token)
  | [] => []
  | (k, x) :: fields => (.str k :: .punct ':' :: x.tokens) :: tokensFields fields
end

/-- The lines hold the document, with one key per line at most and no escaped quotes. -/
def OneKeyPerLine (doc : Json) (lines : List Text) : Bool :=
  match lines.mapM (lex .between) with
  | some tss => tss.flatten = doc.tokens && tss.all fun ts => ts.count (.punct ':') ≤ 1
  | none => false

/-- The signatures are opened on a line of their own, and an array that is opened on one line is
closed on a line of its own if it is not closed on that one. -/
def ArraysApart (lines : List Text) : Bool :=
  lines.all fun line =>
    match lex .between line with
    | some ts =>
      (ts.head? ≠ some (.str "signatures".toList) ||
        ts = [.str "signatures".toList, .punct ':', .punct '[']) &&
      (!ts.contains (.punct ']') || ts.contains (.punct '[') ||
        ts.all (· ∈ [.punct ']', .punct ',']))
    | none => false

def Json.field (key : String) : Json → Option Json
  | .obj fields => fields.lookup key.toList
  | _ => none

def Json.isStr (ok : Text → Bool) : Json → Bool
  | .str s => ok s
  | _ => false

def Json.isBool : Json → Bool
  | .bool _ => true
  | _ => false

def Json.isNatural : Json → Bool
  | .num literal => !literal.isEmpty && isDigits literal
  | _ => false

/-- An array of `minItems` or more. -/
def Json.isArr (minItems : Nat) (ok : Json → Bool) : Json → Bool
  | .arr xs => minItems ≤ xs.length && xs.all ok
  | _ => false

/-- An object with these properties and no others. -/
def Json.isObj (required : List String) (properties : List (String × (Json → Bool))) : Json → Bool
  | .obj fields =>
    required.all (fun k => fields.any (·.1 = k.toList)) &&
      fields.all fun f => properties.any fun p => f.1 = p.1.toList && p.2 f.2
  | _ => false

def anyString : Json → Bool := Json.isStr fun _ => true

/-- An element of `signatures` in `intent.schema.json`. -/
def isSignature : Json → Bool :=
  Json.isObj ["role", "sig", "algo"]
    [("role", Json.isStr isRole), ("sig", Json.isStr (32 ≤ ·.length)), ("algo", Json.isStr isAlgo)]

/-- `intent.schema.json`, with the time as the script wants it. -/
def intentSchema : Json → Bool :=
  Json.isObj requiredKeys
    [("schemaVersion", Json.isStr isVersion), ("project", Json.isStr (1 ≤ ·.length)),
      ("auditor_spec", Json.isObj ["version", "hash"]
        [("version", Json.isStr isVersion), ("hash", Json.isStr isHash)]),
      ("owner", Json.isObj ["id", "pubkey_fingerprint"]
        [("id", Json.isStr (1 ≤ ·.length)), ("pubkey_fingerprint", Json.isStr (16 ≤ ·.length))]),
      ("signatures", Json.isArr 1 isSignature), ("updated_at", Json.isStr isTime),
      ("hardware", Json.isObj ["soc", "board", "flashType"]
        [("soc", anyString), ("board", anyString), ("flashType", anyString),
          ("flashPart", anyString)]),
      ("boot", Json.isObj []
        [("loader", anyString), ("protocol", anyString), ("loadaddr", anyString)]),
      ("capabilities", Json.isObj [] [("network", Json.isObj []
        [("ports", Json.isArr 0 anyString), ("wifi", Json.isArr 0 anyString)])]),
      ("signing", Json.isObj [] [("algorithm", anyString), ("pubkeyPath", anyString),
        ("requiredBeforeBoot", Json.isBool)]),
      ("governance", Json.isObj [] [("authorityRoot", anyString), ("approvalPrefix", anyString),
        ("adrRequirement", Json.isBool), ("requiresOwnerApprovalBeforeFlash", Json.isBool)]),
      ("success", Json.isObj []
        [("criteria", Json.isArr 0 anyString), ("bootSeconds", Json.isNatural)])]

def ownerSigned (doc : Json) : Bool :=
  match doc.field "signatures" with
  | some (.arr xs) => xs.any fun x => (x.field "role").any (Json.isStr (· = "Owner".toList))
  | _ => false

/-! ## What the script says of a document -/

theorem sigLines_pos {inSigs : Bool} {lines : List Text} {n : Nat} :
    ∀ l ∈ sigLines inSigs (lines.zipIdx (n + 1)), 0 < l.2 := by
  induction lines generalizing inSigs n with
  | nil => simp [sigLines]
  | cons line lines ih =>
    rw [zipIdx_cons, sigLines]
    split
    · exact ih
    split
    · simp
    split
    · intro l hl
      rcases mem_cons.mp hl with rfl | hl
      · exact Nat.succ_pos n
      · exact ih l hl
    · exact ih

/-- `NR` is 1 on the first line, so the shortest length is never taken over. -/
theorem minSigLen_eq_zero (lines : List Text) : minSigLen lines = 0 := by
  have hpos : ∀ g ∈ sigValues "sig" lines, 0 < g.2 := by
    intro g hg
    obtain ⟨l, hl, hg⟩ := mem_filterMap.mp hg
    obtain ⟨t, -, rfl⟩ := Option.map_eq_some_iff.mp hg
    exact sigLines_pos (n := 0) l hl
  rw [minSigLen]
  generalize sigValues "sig" lines = values at hpos
  induction values with
  | nil => rfl
  | cons g values ih =>
    have hstep : minSigStep 0 g = 0 :=
      if_neg (by simp [Nat.ne_of_gt (hpos g mem_cons_self)])
    rw [foldl_cons, hstep]
    exact ih fun g hg => hpos g (mem_cons_of_mem _ hg)

theorem mem_failures (host : Host) (lines : List Text) :
    "signature too short: min=0 < 32" ∈ failures host lines := by
  have hcheck : (decide (32 ≤ minSigLen lines),
      "signature too short: min=" ++ toString (minSigLen lines) ++ " < 32") ∈
        checks host lines := by
    simp [checks]
  rw [minSigLen_eq_zero] at hcheck
  exact mem_map.mpr ⟨_, mem_filter.mpr ⟨hcheck, rfl⟩, rfl⟩

theorem validateIntent_eq_one (host : Host) (lines : List Text) : validateIntent host lines = 1 :=
  if_neg fun hnil => by
    have hmem := mem_failures host lines
    rw [List.isEmpty_iff.mp hnil] at hmem
    cases hmem

/-- Whatever the file is, the script finds a shortest signature of length 0 and fails. -/
theorem validate_intent_rejects (host : Host) (lines : List Text) :
    validateIntent host lines ≠ 0 ∧ "signature too short: min=0 < 32" ∈ failures host lines :=
  ⟨by rw [validateIntent_eq_one]; decide, mem_failures host lines⟩

def exampleContract : Json :=
  let text (s : String) := Json.str s.toList
  let object (fields : List (String × Json)) := Json.obj (fields.map fun f => (f.1.toList, f.2))
  object
    [("schemaVersion", text "1.1"), ("project", text "mbsd"),
      ("auditor_spec", object [("version", text "1.1"), ("hash", .str (List.replicate 64 'a'))]),
      ("owner", object [("id", text "owner"), ("pubkey_fingerprint", text "SHA256:0123456789")]),
      ("signatures", .arr [object [("role", text "Owner"), ("sig", .str (List.replicate 64 'b')),
        ("algo", text "ed25519")]]),
      ("updated_at", text "2026-01-01T00:00:00Z")]

def exampleLines : List Text :=
  ["\x7b".toList, "\"schemaVersion\": \"1.1\",".toList, "\"project\": \"mbsd\",".toList,
    "\"auditor_spec\": \x7b".toList, "  \"version\": \"1.1\",".toList,
    "  \"hash\": \"".toList ++ List.replicate 64 'a' ++ ['"'], "\x7d,".toList,
    "\"owner\": \x7b".toList, "  \"id\": \"owner\",".toList,
    "  \"pubkey_fingerprint\": \"SHA256:0123456789\"".toList, "\x7d,".toList,
    "\"signatures\": [".toList, "  \x7b \"role\": \"Owner\",".toList,
    "    \"sig\": \"".toList ++ List.replicate 64 'b' ++ "\",".toList,
    "    \"algo\": \"ed25519\" \x7d".toList, "],".toList,
    "\"updated_at\": \"2026-01-01T00:00:00Z\"".toList, "\x7d".toList]

example : failures ⟨fun t => [t], id⟩ exampleLines = ["signature too short: min=0 < 32"] := by
  decide +kernel

theorem not_validate_intent_accepts :
    ¬ ∀ host doc lines, intentSchema doc → ownerSigned doc → OneKeyPerLine doc lines →
      ArraysApart lines → validateIntent host lines = 0 := by
  intro haccepts
  have hzero := haccepts ⟨fun t => [t], id⟩ exampleContract exampleLines (by decide +kernel)
    (by decide +kernel) (by decide +kernel) (by decide +kernel)
  rw [validateIntent_eq_one] at hzero
  cases hzero

end Mbsd.Scripts.ValidateIntent
