import BlockScript.Proofs.Code.Lowering
import BlockScript.Proofs.Printing

/-!
# Nodes out of place

A tree may have any node in any place, and code generation refuses some of them: a statement where
an expression belongs, an expression where a statement belongs, and a comparison.  The notes in the
tree are no other reason.  Resolution fails or makes all the notes that code generation reads, and
every context that it notes is one that code generation finds.

So what a program compiles to is decided by its resolution and by the first of its nodes, in
pre-order, that has a defect (`Part.defect?`).  The main statement is `Program.compile_outcome`.
-/

namespace BlockScript

/-! ## Places -/

/-- What a place in a tree is for. -/
inductive Role where
  /-- The statements of a block. -/
  | statement
  /-- The first value of a variable, and the operands of an operation. -/
  | expression
deriving DecidableEq

/-- A node in its place. -/
structure Part where
  /-- What the place is for. -/
  role : Role
  /-- The node, with all below it. -/
  tree : Tree

/-- The error for a node that cannot stand in its place, or has an operator that cannot be run. -/
def Part.defect? (n : Part) : Option EmitError :=
  match n.role, n.tree with
  | .statement, .block .. | .statement, .declaration .. => none
  | .statement, t@(.operation ..) | .statement, t@(.identifier ..) | .statement, t@(.literal ..) =>
    some (.unexpectedNode t.kindName t.location)
  | .expression, t@(.block ..) | .expression, t@(.declaration ..) =>
    some (.unexpectedNode t.kindName t.location)
  | .expression, .operation _ (.arithmetic _) _ _ => none
  | .expression, .operation site op _ _ => some (.unsupportedOperator op site.location)
  | .expression, .identifier .. | .expression, .literal .. => none

namespace Tree

mutual

/-- The nodes of a tree in pre-order, each in its place. -/
def parts (role : Role) : Tree → List Part
  | t@(block _ body) => ⟨role, t⟩ :: partsAll body
  | t@(declaration _ _ _ init) => ⟨role, t⟩ :: init.parts .expression
  | t@(operation _ _ left right) => ⟨role, t⟩ :: (left.parts .expression ++ right.parts .expression)
  | t@(identifier ..) | t@(literal ..) => [⟨role, t⟩]

/-- The nodes of statements in pre-order, each in its place. -/
def partsAll : List Tree → List Part
  | [] => []
  | t :: ts => t.parts .statement ++ partsAll ts

end

end Tree

/-- The nodes below the outermost block in pre-order. -/
def Program.parts (p : Program) : List Part := Tree.partsAll p.body

/-! ## Code generation behind resolution -/

/-- The error of code generation, if there is one. -/
def Emitted.error? : Emitted → Option EmitError
  | .error (e, _) => some e
  | .ok _ => none

theorem Scopes.exists_find? {s : Scopes} {i : Nat} (h : i < s.size) : ∃ c, s.find? i = some c :=
  ⟨_, Array.getElem?_eq_getElem h⟩

namespace Tree

/-- A resolved expression fails to become code at the first of its nodes that has a defect. -/
theorem error?_emitExpression (share : Bool) : ∀ (t : Tree) {active : Nat} {w : Walk},
    (t.resolve share active w).error = none → ∀ code : Code,
    ((t.resolve share active w).value.emitExpression code).error? =
      (t.parts .expression).findSome? Part.defect?
  | block site body, active, w, _, code => by
      rw [resolve_block, emitExpression, parts]
      rfl
  | declaration site name slot init, active, w, _, code => by
      rw [resolve_declaration, emitExpression, parts]
      rfl
  | operation site op left right, active, w, h, code => by
      obtain ⟨hl, hr⟩ := resolve_operation_ok h
      rw [resolve_operation hl, parts]
      cases op with
      | equal => rfl
      | notEqual => rfl
      | arithmetic a =>
          have ihl := left.error?_emitExpression share hl code
          show _ = (left.parts .expression ++ right.parts .expression).findSome? Part.defect?
          rw [List.findSome?_append, ← ihl, emitExpression]
          cases hcode : (left.resolve share active w).value.emitExpression code with
          | error e => rfl
          | ok code₁ =>
              have ihr := right.error?_emitExpression share hr code₁
              show _ = (right.parts .expression).findSome? Part.defect?
              rw [← ihr]
              dsimp only
              split
              next he => rw [he]
              next he => rw [he]; rfl
  | identifier site name binding, active, w, h, code => by
      rw [resolve] at h ⊢
      split at h
      next => rfl
      next => cases h
  | literal site value constant, active, w, h, code => by
      rw [resolve, parts]
      cases hv : value.inline? with
      | some n =>
          simp only [emitExpression, hv]
          rfl
      | none =>
          simp only [emitExpression, hv]
          rfl

theorem size_le_resolveAll {share : Bool} {active : Nat} {ts : List Tree} {w : Walk}
    (ha : active < w.scopes.size) (h : (resolveAll share active [] ts w).error = none) :
    w.scopes.size ≤ (resolveAll share active [] ts w).walk.scopes.size := by
  rw [size_of_outline (resolveAll_outline share ts ha h)]
  exact Nat.le_add_right _ _

theorem size_le_resolve {share : Bool} {active : Nat} {t : Tree} {w : Walk}
    (ha : active < w.scopes.size) (h : (t.resolve share active w).error = none) :
    w.scopes.size ≤ (t.resolve share active w).walk.scopes.size := by
  rw [size_of_outline (resolve_outline share t ha h)]
  exact Nat.le_add_right _ _

mutual

/-- A resolved statement fails to become code at the first of its nodes that has a defect. -/
theorem error?_emitStatement (share : Bool) {final : Scopes} : ∀ (t : Tree) {active : Nat}
    {w : Walk}, active < w.scopes.size → (t.resolve share active w).error = none →
    (t.resolve share active w).walk.scopes.size ≤ final.size → ∀ code : Code,
    ((t.resolve share active w).value.emitStatement final code).error? =
      (t.parts .statement).findSome? Part.defect?
  | block site body, active, w, ha, h, hfinal, code => by
      have henter : w.scopes.size < (w.enter (some active) site.location).scopes.size := by
        show w.scopes.contexts.size < (w.scopes.contexts.push _).size
        rw [Array.size_push]
        exact Nat.lt_succ_self _
      rw [resolve_block] at h hfinal ⊢
      -- The context of the block is opened before its statements are resolved, and none is closed.
      have hid := Nat.lt_of_lt_of_le henter (Nat.le_trans (size_le_resolveAll henter h) hfinal)
      obtain ⟨c, hc⟩ := Scopes.exists_find? hid
      have ih := error?_emitStatements share body henter h hfinal
      rw [parts]
      show _ = (partsAll body).findSome? Part.defect?
      simp only [emitStatement, Site.within, hc]
      split
      next => exact ih code
      next =>
        rw [← ih (code.push (Operation.enter.on []))]
        split
        next he => rw [he]
        next he =>
          rw [he]
          rfl
  | declaration site name slot init, active, w, ha, h, hfinal, code => by
      -- The context is looked up behind the initial value.  It is there, so this adds no error.
      have hactive := Nat.lt_of_lt_of_le ha (Nat.le_trans (size_le_resolve ha h) hfinal)
      obtain ⟨c, hc⟩ := Scopes.exists_find? hactive
      rw [resolve_declaration] at h ⊢
      rw [parts]
      show _ = (init.parts .expression).findSome? Part.defect?
      rw [← init.error?_emitExpression share h code]
      simp only [emitStatement, Site.within, hc]
      split
      next he => rw [he]
      next he =>
        rw [he]
        rfl
  | operation site op left right, active, w, _, h, _, code => by
      obtain ⟨hl, -⟩ := resolve_operation_ok h
      rw [resolve_operation hl, emitStatement, parts]
      rfl
  | identifier site name binding, active, w, _, _, _, code => by
      rw [resolve, parts]
      split
      next => rfl
      next => rfl
  | literal site value constant, active, w, _, _, _, code => by
      rw [resolve, parts]
      split
      next => rfl
      next => rfl

/-- Resolved statements fail to become code at the first of their nodes that has a defect. -/
theorem error?_emitStatements (share : Bool) {final : Scopes} : ∀ (ts : List Tree) {active : Nat}
    {w : Walk}, active < w.scopes.size → (resolveAll share active [] ts w).error = none →
    (resolveAll share active [] ts w).walk.scopes.size ≤ final.size → ∀ code : Code,
    (emitStatements final (resolveAll share active [] ts w).value code).error? =
      (partsAll ts).findSome? Part.defect?
  | [], _, _, _, _, _, _ => rfl
  | t :: ts, active, w, ha, h, hfinal, code => by
      obtain ⟨ht, hts⟩ := resolveAll_cons_ok h
      rw [resolveAll_cons ht] at hfinal ⊢
      have hsize := Nat.lt_of_lt_of_le ha (size_le_resolve ha ht)
      have iht := error?_emitStatement share t ha ht
        (Nat.le_trans (size_le_resolveAll hsize hts) hfinal) code
      rw [partsAll, List.findSome?_append, ← iht, emitStatements]
      cases hcode : (t.resolve share active w).value.emitStatement final code with
      | error e => rfl
      | ok code₁ => exact error?_emitStatements share ts hsize hts hfinal code₁

end

end Tree

namespace Program

/-- A resolved program fails to become code at the first of its nodes that has a defect. -/
theorem error?_emit {p : Program} {share : Bool} (h : (p.resolve share).error = none) :
    ((p.resolve share).value.emit (p.resolve share).walk.scopes #[]).error? =
      p.parts.findSome? Part.defect? := by
  rw [emit_resolve h]
  exact Tree.error?_emitStatements share p.body (Nat.zero_lt_one) h (Nat.le_refl _) #[]

end Program

/-! ## Parsed programs -/

/-- The node is a comparison where an expression belongs. -/
def Part.IsComparison (n : Part) : Prop :=
  n.role = .expression ∧
    ∃ site op left right, n.tree = .operation site op left right ∧ (op = .equal ∨ op = .notEqual)

namespace Tree

/-- In an expression that can be written, only a comparison has a defect. -/
theorem isComparison_of_expression : ∀ (t : Tree), t.IsExpression →
    ∀ n ∈ t.parts .expression, n.defect? ≠ none → n.IsComparison
  | operation site op left right, h, n, hn, hd => by
      rw [parts, List.mem_cons, List.mem_append] at hn
      obtain rfl | hn | hn := hn
      · cases op with
        | arithmetic a => exact absurd rfl hd
        | equal => exact ⟨rfl, _, _, _, _, rfl, Or.inl rfl⟩
        | notEqual => exact ⟨rfl, _, _, _, _, rfl, Or.inr rfl⟩
      · exact left.isComparison_of_expression h.1 n hn hd
      · exact right.isComparison_of_expression h.2 n hn hd
  | identifier site name binding, _, n, hn, hd => by
      rw [parts, List.mem_singleton] at hn
      subst hn
      exact absurd rfl hd
  | literal site value constant, _, n, hn, hd => by
      rw [parts, List.mem_singleton] at hn
      subst hn
      exact absurd rfl hd

mutual

/-- In a statement that can be written, only a comparison has a defect. -/
theorem isComparison_of_statement : ∀ (t : Tree), t.IsStatement →
    ∀ n ∈ t.parts .statement, n.defect? ≠ none → n.IsComparison
  | block site body, h, n, hn, hd => by
      rw [parts, List.mem_cons] at hn
      obtain rfl | hn := hn
      · exact absurd rfl hd
      · exact isComparison_of_statements body h n hn hd
  | declaration site name slot init, h, n, hn, hd => by
      rw [parts, List.mem_cons] at hn
      obtain rfl | hn := hn
      · exact absurd rfl hd
      · exact init.isComparison_of_expression h.2 n hn hd

theorem isComparison_of_statements : ∀ (ts : List Tree), AreStatements ts →
    ∀ n ∈ partsAll ts, n.defect? ≠ none → n.IsComparison
  | t :: ts, h, n, hn, hd => by
      rw [partsAll, List.mem_append] at hn
      obtain hn | hn := hn
      · exact isComparison_of_statement t h.1 n hn hd
      · exact isComparison_of_statements ts h.2 n hn hd

end

end Tree

/-! ## Outcomes -/

/-- No defect is that of a missing note. -/
theorem Part.defect?_ne_unresolved (n : Part) (what : String) (location : Location) :
    n.defect? ≠ some (.unresolved what location) := by
  rw [defect?]
  split
  all_goals nofun

namespace Program

/-- What a program compiles to, by its resolution and its first defect. -/
theorem compile_cases (p : Program) (s : Settings) :
    (∃ e, (p.resolve s.dedupeConstants).error = some e ∧ p.compile s = .error (.resolution e)) ∨
    (p.resolve s.dedupeConstants).error = none ∧
      ((∃ c, p.compile s = .ok c) ∧ p.parts.findSome? Part.defect? = none ∨
        ∃ d, p.compile s = .error (.emission d) ∧ p.parts.findSome? Part.defect? = some d) := by
  cases h : (p.resolve s.dedupeConstants).error with
  | some e => exact Or.inl ⟨e, rfl, compile_of_unresolved h⟩
  | none =>
      refine Or.inr ⟨rfl, ?_⟩
      have herror := error?_emit h
      cases hemit : (p.resolve s.dedupeConstants).value.emit
          (p.resolve s.dedupeConstants).walk.scopes #[] with
      | ok code =>
          rw [hemit] at herror
          exact Or.inl ⟨⟨⟨_, code⟩, compile_ok_iff.2 ⟨h, rfl, hemit⟩⟩, herror.symm⟩
      | error e =>
          obtain ⟨d, code⟩ := e
          rw [hemit] at herror
          exact Or.inr ⟨d, compile_of_emit_error h hemit, herror.symm⟩

theorem compile_eq_resolution_iff (p : Program) (s : Settings) (e : Undeclared) :
    p.compile s = .error (.resolution e) ↔ (p.resolve s.dedupeConstants).error = some e := by
  obtain ⟨e', he, hc⟩ | ⟨he, ⟨⟨c, hc⟩, -⟩ | ⟨d, hc, -⟩⟩ := p.compile_cases s
  · simp [he, hc]
  · simp [he, hc]
  · simp [he, hc]

theorem compile_eq_ok_iff {p : Program} {s : Settings}
    (h : (p.resolve s.dedupeConstants).error = none) :
    (∃ c, p.compile s = .ok c) ↔ p.parts.findSome? Part.defect? = none := by
  obtain ⟨e, he, -⟩ | ⟨-, ⟨⟨c, hc⟩, hfind⟩ | ⟨d, hc, hfind⟩⟩ := p.compile_cases s
  · cases h.symm.trans he
  · simp [hc, hfind]
  · simp [hc, hfind]

theorem compile_eq_emission_iff (p : Program) (s : Settings) (d : EmitError) :
    p.compile s = .error (.emission d) ↔
      (p.resolve s.dedupeConstants).error = none ∧ p.parts.findSome? Part.defect? = some d := by
  obtain ⟨e, he, hc⟩ | ⟨he, ⟨⟨c, hc⟩, hfind⟩ | ⟨d', hc, hfind⟩⟩ := p.compile_cases s
  · simp [he, hc]
  · simp [he, hc, hfind]
  · simp [he, hc, hfind]

/-- What a program compiles to, whatever its shape and its notes are.  It fails to resolve, or else
it fails at the first of its nodes in pre-order that has a defect, with the error for that node, or
else it becomes code.  No note is missing when code is generated.  In a program that was parsed,
only a comparison has a defect. -/
theorem compile_outcome (p : Program) (s : Settings) :
    (∀ e, p.compile s = .error (.resolution e) ↔ (p.resolve s.dedupeConstants).error = some e) ∧
    ((p.resolve s.dedupeConstants).error = none →
      ((∃ c, p.compile s = .ok c) ↔ ∀ n ∈ p.parts, n.defect? = none) ∧
      ∀ d, p.compile s = .error (.emission d) ↔ ∃ before n after,
        p.parts = before ++ n :: after ∧ n.defect? = some d ∧ ∀ n' ∈ before, n'.defect? = none) ∧
    (∀ what location, p.compile s ≠ .error (.emission (.unresolved what location))) ∧
    ∀ file source, parse file source = .ok p → ∀ n ∈ p.parts, n.defect? ≠ none →
      n.IsComparison := by
  refine ⟨p.compile_eq_resolution_iff s, ?_, ?_, ?_⟩
  · intro h
    refine ⟨(compile_eq_ok_iff h).trans List.findSome?_eq_none_iff, ?_⟩
    intro d
    rw [compile_eq_emission_iff, and_iff_right h, List.findSome?_eq_some_iff]
  · intro what location h
    obtain ⟨n, -, hn⟩ := List.exists_of_findSome?_eq_some ((p.compile_eq_emission_iff s _).1 h).2
    exact n.defect?_ne_unresolved what location hn
  · intro file source h
    exact Tree.isComparison_of_statements p.body (printable_of_parse h).1

/-- The program `var a = 1 + (2 == {});` and behind it `3`, where a statement belongs. -/
def misplaced : Program where
  site := .nowhere
  body := [
    .declaration .nowhere "a" none (.operation .nowhere (.arithmetic .add)
      (.literal .nowhere (.integer 1) none)
      (.operation .nowhere .equal (.literal .nowhere (.integer 2) none) (.block .nowhere []))),
    .literal .nowhere (.integer 3) none]

/-- The comparison comes before the block in its operand and before the number. -/
theorem compile_outcome_misplaced :
    (misplaced.resolve false).error = none ∧
    misplaced.parts.map Part.defect? = [none, none, none,
      some (.unsupportedOperator .equal Site.nowhere.location), none,
      some (.unexpectedNode "block" Site.nowhere.location),
      some (.unexpectedNode "number literal" Site.nowhere.location)] ∧
    misplaced.compile {} =
      .error (.emission (.unsupportedOperator .equal Site.nowhere.location)) := by
  have hresolve : (misplaced.resolve false).error = none := rfl
  have hbefore : ∀ n ∈ misplaced.parts.take 3, n.defect? = none := by
    intro n hn
    have hnone : (misplaced.parts.take 3).map Part.defect? = List.replicate 3 none := rfl
    exact List.eq_of_mem_replicate (hnone ▸ List.mem_map_of_mem hn)
  obtain ⟨-, houtcome, -⟩ := compile_outcome misplaced {}
  obtain ⟨-, hdefect⟩ := houtcome hresolve
  exact ⟨hresolve, rfl, (hdefect _).2 ⟨_, _, misplaced.parts.drop 4, rfl, rfl, hbefore⟩⟩

end Program

end BlockScript
