import DocClassifier.Lib.Fields

/-!
# The policy file

The lines of `casbin/policy.csv` as `_init_casbin_enforcer` reads them, and what a line of a rule
is: a `p` and the values of the rule, separated by commas, with white space around each.
-/

namespace DocClassifier
open Fields

/-- The values of a rule, without the type `p`. -/
abbrev Rule := List String

/-- `str.isspace` of a character. -/
def isSpace (c : Char) : Bool :=
  let n := c.toNat
  (0x09 ≤ n ∧ n ≤ 0x0D) ∨ (0x1C ≤ n ∧ n ≤ 0x20) ∨ n = 0x85 ∨ n = 0xA0 ∨ n = 0x1680 ∨
    (0x2000 ≤ n ∧ n ≤ 0x200A) ∨ n = 0x2028 ∨ n = 0x2029 ∨ n = 0x202F ∨ n = 0x205F ∨ n = 0x3000

/-- What `open` makes of the ends of lines. -/
def universalNewlines : List Char → List Char
  | '\r' :: '\n' :: cs => '\n' :: universalNewlines cs
  | '\r' :: cs => '\n' :: universalNewlines cs
  | c :: cs => c :: universalNewlines cs
  | [] => []

/-- `for line in f`, without the newlines. A file that ends with a newline has an empty line more
here, which is skipped. -/
def fileLines (text : String) : List (List Char) :=
  (universalNewlines text.toList).splitOn '\n'

/-- The arguments of `add_policy` for a line. -/
def parsePolicyLine (line : List Char) : Option Rule :=
  let line := strip isSpace line
  if line = [] ∨ line.head? = some '#' then none
  else
    let parts := (line.splitOn ',').map fun part => String.ofList (strip isSpace part)
    if parts.head? = some "p" then some parts.tail else none

/-- The rules of the file, in its order. -/
def policyRules (text : String) : List Rule := (fileLines text).filterMap parsePolicyLine

/-! ## What the lines spell -/

/-- A line of a rule. -/
def PLine (line : List Char) (rule : Rule) : Prop :=
  Spells isSpace ',' line ("p".toList :: rule.map String.toList)

/-- The file has a line for the rule `sub, obj, act`. -/
def CsvTriple (text sub obj act : String) : Prop :=
  ∃ line ∈ fileLines text, PLine line [sub, obj, act]

section
variable {line : List Char} {rule : Rule} {text : String}

theorem map_toList_ofList (parts : List (List Char)) :
    (parts.map String.ofList).map String.toList = parts := by
  rw [List.map_map]
  exact (List.map_congr_left fun _ _ => String.toList_ofList).trans (List.map_id parts)

/-- The stripped parts of a line of a rule. -/
theorem pLine_iff : PLine line rule ↔
    ((strip isSpace line).splitOn ',').map (fun part => String.ofList (strip isSpace part)) =
      "p" :: rule := by
  have hofList : ((strip isSpace line).splitOn ',').map
      (fun part => String.ofList (strip isSpace part)) =
        (((strip isSpace line).splitOn ',').map (strip isSpace)).map String.ofList := by
    rw [List.map_map]
    rfl
  have hspace : isSpace ',' = false := by decide
  rw [PLine, spells_iff, ← map_strip_splitOn hspace, hofList]
  constructor
  · intro h
    rw [h, ← List.map_cons, List.map_map]
    exact (List.map_congr_left fun _ _ => String.ofList_toList).trans (List.map_id _)
  · intro h
    rw [← map_toList_ofList (List.map _ _), h]
    rfl

/-- A line of a rule is neither empty nor a comment. -/
theorem PLine.not_skipped (h : PLine line rule) :
    ¬ (strip isSpace line = [] ∨ (strip isSpace line).head? = some '#') := by
  have hspells : Spells isSpace ',' (strip isSpace line)
      ("p".toList :: rule.map String.toList) := by
    rw [spells_iff, map_strip_splitOn (by decide)]
    exact Spells.map_strip h
  intro hskip
  rcases hskip with hnil | hhead
  · rw [hnil] at hspells
    have hfields := hspells.map_strip
    exact absurd (List.cons.inj hfields).1 (by decide)
  · obtain ⟨rest, hrest⟩ := List.head?_eq_some_iff.mp hhead
    rw [hrest] at hspells
    have hp := hspells.head? (by decide) (by decide)
    exact absurd hp (by decide)

/-- The parser reads the rule that a line spells, and skips the other lines. -/
theorem parsePolicyLine_eq_some : parsePolicyLine line = some rule ↔ PLine line rule := by
  rw [parsePolicyLine]
  constructor
  · intro h
    dsimp only at h
    split at h
    · cases h
    · split at h
      · rename_i hp
        rw [pLine_iff, ← Option.some.inj h]
        exact (List.cons_head?_tail hp).symm
      · cases h
  · intro h
    have hparts := pLine_iff.mp h
    dsimp only
    rw [if_neg h.not_skipped, hparts]
    rfl

theorem mem_policyRules : rule ∈ policyRules text ↔ ∃ line ∈ fileLines text, PLine line rule := by
  simp only [policyRules, List.mem_filterMap, parsePolicyLine_eq_some]

example : policyRules "# Admin\r\n p , admin,/users, GET \r\n\r\np, auditor, /audit, GET" =
    [["admin", "/users", "GET"], ["auditor", "/audit", "GET"]] := by decide

end

end DocClassifier
