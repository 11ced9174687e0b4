import BlockScript.Proofs.Toml.Document
import BlockScript.Settings

/-!
# Settings are read back

The document that settings are written as reads back as the same settings, whatever characters the
name of the source has.

The main statement is `Settings.ofToml_toToml`.
-/

namespace BlockScript.Settings

open Toml

/-- The pairs of the document for settings. -/
def pairs (s : Settings) : List Pair :=
  [⟨⟨[], "file_name"⟩, .string s.fileName⟩,
    ⟨⟨[], "dedupe_constants"⟩, .boolean s.dedupeConstants⟩,
    ⟨⟨[], "max_stack_size"⟩, .integer s.maxStackSize⟩,
    ⟨⟨[], "trace_execution"⟩, .boolean s.traceExecution⟩]

/-- The lines of the document for settings. -/
def lines (s : Settings) : List String :=
  ["file_name = " ++ writeString s.fileName ++ "\n",
    "dedupe_constants = " ++ toString s.dedupeConstants ++ "\n",
    "max_stack_size = " ++ toString s.maxStackSize ++ "\n",
    "trace_execution = " ++ toString s.traceExecution ++ "\n"]

/-- Each line is that of its pair. -/
theorem isLine_lines {s : Settings} (h : s.maxStackSize ≤ maxInteger) :
    List.Forall₂ IsLine s.lines s.pairs := by
  have hname : IsBareKey "file_name".toList := by decide
  have hdedupe : IsBareKey "dedupe_constants".toList := by decide
  have hsize : IsBareKey "max_stack_size".toList := by decide
  have htrace : IsBareKey "trace_execution".toList := by decide
  exact .cons (.intro hname (isValue_string s.fileName)) <|
    .cons (.intro hdedupe (isValue_boolean s.dedupeConstants)) <|
    .cons (.intro hsize (isValue_integer h)) <|
    .cons (.intro htrace (isValue_boolean s.traceExecution)) .nil

theorem toToml_eq {s : Settings} (h : s.maxStackSize ≤ maxInteger) :
    s.toToml = String.join s.lines := by
  rw [toToml, if_pos h]
  simp only [lines, String.join_cons, String.join_nil, String.append_empty, String.append_assoc]

theorem addPairs_pairs (s : Settings) :
    Entries.addPairs s.pairs [] = some (s.pairs.map fun p => (p.key.last, p.value)) := rfl

theorem ofEntries_pairs (s : Settings) :
    ofEntries (s.pairs.map fun p => (p.key.last, p.value)) = .ok s :=
  rfl

/--
Settings are read back from the document that they are written as, if the greatest number of
operands is an integer of the format.  If it is none, the document is empty, and reads back as the
defaults.
-/
theorem ofToml_toToml (s : Settings) :
    (s.maxStackSize ≤ maxInteger → ofToml s.toToml = .ok s) ∧
    (maxInteger < s.maxStackSize → s.toToml = "" ∧ ofToml s.toToml = .ok {}) := by
  constructor
  · intro h
    rw [ofToml, toToml_eq h, parse?_join (isLine_lines h), addPairs_pairs]
    exact ofEntries_pairs s
  · intro h
    have hempty : s.toToml = "" := if_neg (Nat.not_le.2 h)
    have hnone : parse? "" = some [] := parse?_join .nil
    rw [hempty, ofToml, hnone]
    exact ⟨rfl, rfl⟩

/-- A name of three quotes of each kind, a backslash and control characters is read back from a
document with escapes, next to the greatest size that can be written; one more is too much. -/
theorem ofToml_toToml_awkward :
    writeString "\"\"\"'''\\\r\n\x07" = "\"\"\"\n\"\"\\\"'''\\\\\\r\n\\u0007\"\"\"" ∧
    ofToml (toToml ⟨"\"\"\"'''\\\r\n\x07", true, maxInteger, false⟩) =
      .ok ⟨"\"\"\"'''\\\r\n\x07", true, maxInteger, false⟩ ∧
    toToml { maxStackSize := maxInteger + 1 } = "" ∧
    ofToml (toToml { maxStackSize := maxInteger + 1 }) = .ok {} := by
  obtain ⟨hread, -⟩ := ofToml_toToml ⟨"\"\"\"'''\\\r\n\x07", true, maxInteger, false⟩
  obtain ⟨-, hdefault⟩ := ofToml_toToml { maxStackSize := maxInteger + 1 }
  exact ⟨by decide, hread (Nat.le_refl maxInteger), hdefault (Nat.lt_succ_self maxInteger)⟩

end BlockScript.Settings
