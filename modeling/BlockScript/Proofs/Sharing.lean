import BlockScript.Proofs.Correctness
import Mathlib.Data.List.Forall2

/-!
# Sharing constants is not observed

A setting decides whether equal constants share a place in the pool.  It changes the pool and the
places in the code, and nothing else (`Engine.executeTree_sharing`): with and without it a program
has the same error, or else code that differs only in the places of constants, where both pools have
the same number; and the two codes run alike.

Resolution is compared first.  The names in the two arenas are the same at every point of the two
walks, so both stop at the same identifier or at none (`Tree.resolve_error_congr`), and each walk
leaves the numbers that it hoists in its pool, in order (`Tree.resolve_pool`).  Then the notes of
the two walks give code that agrees instruction by instruction (`Tree.resolve_emitsAlike`), and two
machines that run it are in the same state after every line, but for the pool
(`Machine.runLines_agree`).
-/

namespace BlockScript

/-! ## Arenas with the same names -/

namespace Scopes

theorem size_congr {s s' : Scopes} (h : s'.outline = s.outline) : s'.size = s.size := by
  rw [← length_outline, h, length_outline]

/-- Arenas with the same outline have contexts with the same names and parents. -/
theorem find?_congr {s s' : Scopes} (h : s'.outline = s.outline) {i : Nat} {c : Context}
    (hc : s.find? i = some c) : ∃ c', s'.find? i = some c' ∧ c'.outline = c.outline := by
  refine find?_of_outline ?_
  rw [h, getElem?_outline, hc]
  rfl

theorem find?_none_congr {s s' : Scopes} (h : s'.outline = s.outline) {i : Nat}
    (hc : s.find? i = none) : s'.find? i = none := by
  cases hc' : s'.find? i with
  | none => rfl
  | some c' =>
      obtain ⟨c, hfind, -⟩ := find?_congr h.symm hc'
      rw [hc] at hfind
      cases hfind

/-- What a name means depends on the outline of the arena alone. -/
theorem lookupFrom_congr {s s' : Scopes} (h : s'.outline = s.outline) (name : String) :
    ∀ (i depth : Nat), s'.lookupFrom depth i name = s.lookupFrom depth i name := by
  intro i
  exact lookupFrom_congr_of_le name (fun _ _ => by rw [h])

end Scopes

namespace Tree

/-- The names after two walks over a tree are the same, if they were before. -/
theorem resolve_outline_congr {share share' : Bool} {t : Tree} {active : Nat} {w w' : Walk}
    (ha : active < w.scopes.size) (hw : w'.scopes.outline = w.scopes.outline)
    (he : (t.resolve share active w).error = none)
    (he' : (t.resolve share' active w').error = none) :
    (t.resolve share' active w').walk.scopes.outline =
      (t.resolve share active w).walk.scopes.outline := by
  have hsize := Scopes.size_congr hw
  rw [resolve_outline share t ha he, resolve_outline share' t (hsize ▸ ha) he', hw, hsize]

theorem enter_outline_congr {w w' : Walk} (hw : w'.scopes.outline = w.scopes.outline)
    (parent : Option Nat) (owner : Location) :
    (w'.enter parent owner).scopes.outline = (w.enter parent owner).scopes.outline := by
  rw [Walk.enter, Walk.enter, Scopes.outline_push, Scopes.outline_push, hw, Scopes.size_congr hw]

theorem declare_congr {w w' : Walk} {active : Nat} (ha : active < w.scopes.size)
    (hw : w'.scopes.outline = w.scopes.outline) (name : String) :
    (w'.declare active name).1.scopes.outline = (w.declare active name).1.scopes.outline ∧
      (w'.declare active name).2 = (w.declare active name).2 ∧
      (w.declare active name).1.scopes.size = w.scopes.size := by
  obtain ⟨o, ho⟩ : ∃ o, w.scopes.outline[active]? = some o :=
    ⟨_, List.getElem?_eq_getElem (by rw [Scopes.length_outline]; exact ha)⟩
  obtain ⟨hout, hslot, -⟩ := Scopes.declare_spec ho name
  obtain ⟨hout', hslot', -⟩ := Scopes.declare_spec (hw.symm ▸ ho) name
  refine ⟨?_, hslot'.trans hslot.symm, ?_⟩
  · rw [Walk.declare, Walk.declare, hout, hout', hw]
  · rw [← Scopes.length_outline, Walk.declare, hout, List.length_modify, Scopes.length_outline]

theorem size_enter (w : Walk) (parent : Option Nat) (owner : Location) :
    (w.enter parent owner).scopes.size = w.scopes.size + 1 := by
  simp [Walk.enter, Scopes.size, Scopes.push]

/-! ## Errors of resolution -/

mutual

/-- Whether a tree resolves, and the error if it does not, is a matter of names. -/
theorem resolve_error_congr (share share' : Bool) : ∀ (t : Tree) {active : Nat} {w w' : Walk},
    active < w.scopes.size → w'.scopes.outline = w.scopes.outline →
    (t.resolve share' active w').error = (t.resolve share active w).error
  | block site body, active, w, w', ha, hw => by
      rw [resolve_block, resolve_block, Scopes.size_congr hw]
      exact resolveAll_error_congr share share' body (by rw [size_enter]; omega)
        (enter_outline_congr hw _ _)
  | declaration site name slot init, active, w, w', ha, hw => by
      obtain ⟨hout, -, hsize⟩ := declare_congr ha hw name
      rw [resolve_declaration, resolve_declaration]
      exact resolve_error_congr share share' init (by rw [hsize]; exact ha) hout
  | operation site op left right, active, w, w', ha, hw => by
      have hl := resolve_error_congr share share' left ha hw
      cases he : (left.resolve share active w).error with
      | some e =>
          rw [he] at hl
          simp only [resolve, he, hl]
      | none =>
          rw [he] at hl
          rw [resolve_operation he, resolve_operation hl]
          refine resolve_error_congr share share' right ?_ (resolve_outline_congr ha hw he hl)
          rw [size_of_outline (resolve_outline share left ha he)]
          omega
  | identifier site name binding, active, w, w', ha, hw => by
      have hlook : w'.scopes.lookup active name = w.scopes.lookup active name :=
        Scopes.lookupFrom_congr hw name active 0
      rw [resolve, resolve, hlook]
      split
      next => rfl
      next => rfl
  | literal site value constant, active, w, w', ha, hw => by
      rw [resolve, resolve]
      split
      next => rfl
      next => rfl

theorem resolveAll_error_congr (share share' : Bool) : ∀ (ts : List Tree) {active : Nat}
    {w w' : Walk}, active < w.scopes.size → w'.scopes.outline = w.scopes.outline →
    (resolveAll share' active [] ts w').error = (resolveAll share active [] ts w).error
  | [], active, w, w', ha, hw => rfl
  | t :: ts, active, w, w', ha, hw => by
      have ht := resolve_error_congr share share' t ha hw
      cases he : (t.resolve share active w).error with
      | some e =>
          rw [he] at ht
          rw [resolveAll_cons_error he, resolveAll_cons_error ht]
      | none =>
          rw [he] at ht
          rw [resolveAll_cons he, resolveAll_cons ht]
          refine resolveAll_error_congr share share' ts ?_ (resolve_outline_congr ha hw he ht)
          rw [size_of_outline (resolve_outline share t ha he)]
          omega

end

/-! ## Pools -/

mutual

/-- The numbers in a tree that do not fit into an instruction, in order. -/
def hoisted : Tree → List Number
  | block _ body => hoistedAll body
  | declaration _ _ _ init => init.hoisted
  | operation _ _ left right => left.hoisted ++ right.hoisted
  | identifier .. => []
  | literal _ value _ => if value.inline?.isNone then [value] else []

/-- The numbers in statements that do not fit into an instruction. -/
def hoistedAll : List Tree → List Number
  | [] => []
  | t :: ts => t.hoisted ++ hoistedAll ts

end

mutual

/-- Resolution adds the numbers that it hoists to the pool, one after the other. -/
theorem resolve_pool (share : Bool) : ∀ (t : Tree) {active : Nat} {ns : List String}
    {Γ : List (List String)} {w : Walk}, Visible w.scopes.outline active (ns :: Γ) →
    (t.resolve share active w).error = none →
    (t.resolve share active w).walk.scopes.pool = t.hoisted.foldl (Pool.add share) w.scopes.pool
  | block site body, active, ns, Γ, w, hv, he => by
      rw [resolve_block] at he ⊢
      rw [hoisted, ← Walk.pool_enter hv (some active) site.location]
      exact resolveAll_pool share body (Walk.visible_enter hv site.location) he
  | declaration site name slot init, active, ns, Γ, w, hv, he => by
      obtain ⟨hv', -, hpool⟩ := Walk.visible_declare hv name
      rw [resolve_declaration] at he ⊢
      rw [hoisted, ← hpool]
      exact resolve_pool share init hv' he
  | operation site op left right, active, ns, Γ, w, hv, he => by
      obtain ⟨hl, hr⟩ := resolve_operation_ok he
      rw [resolve_operation hl, hoisted, List.foldl_append, ← resolve_pool share left hv hl]
      exact resolve_pool share right (visible_resolve hv hl) hr
  | identifier site name binding, active, ns, Γ, w, hv, he => by
      rw [resolve]
      split
      next => rfl
      next => rfl
  | literal site value constant, active, ns, Γ, w, hv, he => by
      rw [resolve, hoisted]
      cases hi : value.inline? with
      | some n => rfl
      | none => exact (Scopes.register_spec hv share value).1

theorem resolveAll_pool (share : Bool) : ∀ (ts : List Tree) {active : Nat} {ns : List String}
    {Γ : List (List String)} {w : Walk}, Visible w.scopes.outline active (ns :: Γ) →
    (resolveAll share active [] ts w).error = none →
    (resolveAll share active [] ts w).walk.scopes.pool =
      (hoistedAll ts).foldl (Pool.add share) w.scopes.pool
  | [], active, ns, Γ, w, hv, he => rfl
  | t :: ts, active, ns, Γ, w, hv, he => by
      obtain ⟨ht, hts⟩ := resolveAll_cons_ok he
      rw [resolveAll_cons ht, hoistedAll, List.foldl_append, ← resolve_pool share t hv ht]
      exact resolveAll_pool share ts (visible_resolve hv ht) hts

end

end Tree

namespace Pool

theorem prefix_foldl_add (share : Bool) : ∀ (values pool : List Number),
    pool <+: values.foldl (add share) pool
  | [], _ => List.prefix_rfl
  | value :: values, pool =>
      (prefix_add share pool value).trans (prefix_foldl_add share values (add share pool value))

theorem length_add_le (share : Bool) (pool : List Number) (value : Number) :
    (add share pool value).length ≤ pool.length + 1 := by
  cases share with
  | false => simp [add]
  | true =>
      simp only [add, enroll, if_true]
      split
      · exact Nat.le_succ _
      · simp

/-- A pool has at most one place for each number that is added to it. -/
theorem length_foldl_add_le (share : Bool) : ∀ (values pool : List Number),
    (values.foldl (add share) pool).length ≤ pool.length + values.length
  | [], _ => Nat.le_refl _
  | value :: values, pool => by
      have h := length_foldl_add_le share values (add share pool value)
      have h' := length_add_le share pool value
      rw [List.foldl_cons, List.length_cons]
      omega

end Pool

namespace Tree

theorem prefix_pool_resolve {share : Bool} {t : Tree} {active : Nat} {ns : List String}
    {Γ : List (List String)} {w : Walk} (hv : Visible w.scopes.outline active (ns :: Γ))
    (he : (t.resolve share active w).error = none) :
    w.scopes.pool <+: (t.resolve share active w).walk.scopes.pool := by
  rw [resolve_pool share t hv he]
  exact Pool.prefix_foldl_add share _ _

theorem prefix_pool_resolveAll {share : Bool} {ts : List Tree} {active : Nat} {ns : List String}
    {Γ : List (List String)} {w : Walk} (hv : Visible w.scopes.outline active (ns :: Γ))
    (he : (resolveAll share active [] ts w).error = none) :
    w.scopes.pool <+: (resolveAll share active [] ts w).walk.scopes.pool := by
  rw [resolveAll_pool share ts hv he]
  exact Pool.prefix_foldl_add share _ _

end Tree

/-! ## Code that agrees -/

/-- Two instructions with pools of their own agree: they are the same and load no constant, or they
load constants that are the same number in the two pools. -/
inductive Instruction.Agrees (pool pool' : List Number) : Instruction → Instruction → Prop where
  | same {i : Instruction} : i.opcode ≠ Operation.loadConstant.opcode → Agrees pool pool' i i
  | constant {place place' : Nat} {value : Number} :
      pool[place]? = some value → pool'[place']? = some value →
      Agrees pool pool' (Operation.loadConstant.on [.constant place])
        (Operation.loadConstant.on [.constant place'])

/-- Two codes agree instruction by instruction. -/
def Code.Agrees (pool pool' : List Number) (code code' : Code) : Prop :=
  List.Forall₂ (Instruction.Agrees pool pool') code.toList code'.toList

/-- Both outcomes are code that agrees, or both are the same error. -/
inductive Emitted.Agrees (pool pool' : List Number) : Emitted → Emitted → Prop where
  | ok {code code' : Code} : code.Agrees pool pool' code' → Agrees pool pool' (.ok code) (.ok code')
  | error {e : EmitError} {code code' : Code} : Agrees pool pool' (.error (e, code))
      (.error (e, code'))

section

variable {pool pool' : List Number}

theorem Code.Agrees.push {code code' : Code} {i i' : Instruction}
    (h : code.Agrees pool pool' code') (hi : i.Agrees pool pool' i') :
    Code.Agrees pool pool' (code.push i) (code'.push i') := by
  rw [Agrees, Array.toList_push, Array.toList_push]
  exact List.rel_append h (.cons hi .nil)

/-- An operation other than the load of a constant agrees with itself. -/
theorem Instruction.Agrees.on {op : Operation} (h : op ≠ .loadConstant) (operands : List Operand) :
    Agrees pool pool' (op.on operands) (op.on operands) := by
  refine .same ?_
  cases op with
  | loadConstant => exact absurd rfl h
  | _ =>
      refine ne_of_apply_ne (fun o : Opcode => o.number.val) ?_
      simp [Operation.on, Operation.opcode]

/-- What agrees is followed by what agrees. -/
theorem Emitted.Agrees.bind {a b : Emitted} {f g : Code → Emitted} :
    a.Agrees pool pool' b →
    (∀ code code', Code.Agrees pool pool' code code' →
      Emitted.Agrees pool pool' (f code) (g code')) →
    Emitted.Agrees pool pool'
      (match a with
        | .error e => .error e
        | .ok code => f code)
      (match b with
        | .error e => .error e
        | .ok code => g code) := by
  intro h hf
  cases h with
  | ok hc => exact hf _ _ hc
  | error => exact .error

/-- Two trees become code alike, as expressions and as statements, in arenas with the same names. -/
structure Tree.EmitsAlike (pool pool' : List Number) (t t' : Tree) : Prop where
  expression : ∀ {code code' : Code}, code.Agrees pool pool' code' →
    Emitted.Agrees pool pool' (t.emitExpression code) (t'.emitExpression code')
  statement : ∀ {final final' : Scopes}, final'.outline = final.outline →
    ∀ {code code' : Code}, code.Agrees pool pool' code' →
      Emitted.Agrees pool pool' (t.emitStatement final code) (t'.emitStatement final' code')

/-- Two lists of statements become code alike. -/
def Tree.EmitAllAlike (pool pool' : List Number) (ts ts' : List Tree) : Prop :=
  ∀ final final' : Scopes, final'.outline = final.outline →
    ∀ code code' : Code, code.Agrees pool pool' code' →
      Emitted.Agrees pool pool' (Tree.emitStatements final ts code)
        (Tree.emitStatements final' ts' code')

theorem Binding.load_agrees (b : Binding) : b.load.Agrees pool pool' b.load := by
  rw [Binding.load]
  split
  · exact .on (by decide) _
  · exact .on (by decide) _
  · exact .on (by decide) _

theorem Arithmetic.operation_agrees (a : Arithmetic) :
    (a.operation.on []).Agrees pool pool' (a.operation.on []) := by
  cases a with
  | add => exact .on (by decide) _
  | sub => exact .on (by decide) _
  | mul => exact .on (by decide) _
  | div => exact .on (by decide) _

end

/-- Whether a context is global is a matter of the outline of the arena. -/
theorem Context.isGlobal_congr {c c' : Context} (h : c'.outline = c.outline) :
    c'.isGlobal = c.isGlobal := by
  have hparent : c'.parent = c.parent := congrArg Outline.parent h
  rw [Context.isGlobal, hparent]
  rfl

namespace Tree

section

variable {pool pool' : List Number}

theorem EmitsAlike.block {body body' : List Tree} (h : EmitAllAlike pool pool' body body')
    (site : Site) : EmitsAlike pool pool' (block site body) (block site body') where
  expression _ := .error
  statement {final final'} hf {code code'} hc := by
    rw [emitStatement, emitStatement]
    split
    next => exact .error
    next id _ =>
      cases hx : final.find? id with
      | none =>
          rw [Scopes.find?_none_congr hf hx]
          exact .error
      | some x =>
          obtain ⟨x', hx', hout⟩ := Scopes.find?_congr hf hx
          rw [hx']
          simp only [Context.isGlobal_congr hout]
          cases x.isGlobal with
          | true => exact h _ _ hf _ _ hc
          | false =>
              have henter : Code.Agrees pool pool' (code.push (Operation.enter.on []))
                  (code'.push (Operation.enter.on [])) := hc.push (.on (by decide) _)
              refine (h _ _ hf _ _ henter).bind ?_
              intro c c' hcode
              exact .ok (hcode.push (.on (by decide) _))

theorem EmitsAlike.declaration {init init' : Tree} (h : EmitsAlike pool pool' init init')
    (site : Site) (name : String) (slot : Option Nat) :
    EmitsAlike pool pool' (declaration site name slot init) (declaration site name slot init') where
  expression _ := .error
  statement {final final'} hf {code code'} hc := by
    simp only [emitStatement]
    split
    next id slot _ =>
      refine (h.expression hc).bind ?_
      intro c c' hcode
      cases hx : final.find? id with
      | none =>
          rw [Scopes.find?_none_congr hf hx]
          exact .error
      | some x =>
          obtain ⟨x', hx', hout⟩ := Scopes.find?_congr hf hx
          rw [hx']
          simp only [Context.isGlobal_congr hout]
          refine .ok (hcode.push ?_)
          cases x.isGlobal with
          | true => exact .on (by decide) _
          | false => exact .on (by decide) _
    next => exact .error

theorem EmitsAlike.operation {left left' right right' : Tree}
    (hl : EmitsAlike pool pool' left left') (hr : EmitsAlike pool pool' right right')
    (site : Site) (op : Operator) :
    EmitsAlike pool pool' (operation site op left right) (operation site op left' right') where
  expression hc := by
    simp only [emitExpression]
    split
    next a =>
      refine (hl.expression hc).bind ?_
      intro c c' hcode
      refine (hr.expression hcode).bind ?_
      intro c c' hcode
      exact .ok (hcode.push a.operation_agrees)
    next => exact .error
    next => exact .error
  statement _ _ _ _ := .error

theorem EmitsAlike.identifier (site : Site) (name : String) (b : Binding) :
    EmitsAlike pool pool' (identifier site name (some b)) (identifier site name (some b)) where
  expression hc := .ok (hc.push b.load_agrees)
  statement _ _ _ _ := .error

theorem EmitsAlike.inline {value : Number} {n : Int} (hv : value.inline? = some n) (site : Site)
    (constant : Option Nat) :
    EmitsAlike pool pool' (literal site value constant) (literal site value constant) where
  expression hc := by
    simp only [emitExpression, hv]
    exact .ok (hc.push (.on (by decide) _))
  statement _ _ _ _ := .error

/-- A number in the pool may have another place in the other pool. -/
theorem EmitsAlike.constant {value : Number} {place place' : Nat} (hv : value.inline? = none)
    (hp : pool[place]? = some value) (hp' : pool'[place']? = some value) (site : Site) :
    EmitsAlike pool pool' (literal site value (some place)) (literal site value (some place')) where
  expression hc := by
    simp only [emitExpression, hv]
    exact .ok (hc.push (.constant hp hp'))
  statement _ _ _ _ := .error

end

/-! ## Notes that agree -/

mutual

/-- Two walks over one tree, from arenas with the same names, leave notes that become code alike.
`pool` and `pool'` are the pools at the end of the two walks over the whole program. -/
theorem resolve_emitsAlike {share share' : Bool} {pool pool' : List Number} :
    ∀ (t : Tree) {active : Nat} {ns : List String} {Γ : List (List String)} {w w' : Walk},
      Visible w.scopes.outline active (ns :: Γ) → w'.scopes.outline = w.scopes.outline →
      (t.resolve share active w).error = none → (t.resolve share' active w').error = none →
      (t.resolve share active w).walk.scopes.pool <+: pool →
      (t.resolve share' active w').walk.scopes.pool <+: pool' →
      EmitsAlike pool pool' (t.resolve share active w).value (t.resolve share' active w').value
  | block site body, active, ns, Γ, w, w', hv, hw, he, he', hp, hp' => by
      rw [resolve_block] at he he' hp hp' ⊢
      rw [resolve_block]
      rw [Scopes.size_congr hw] at he' hp' ⊢
      exact .block (resolveAll_emitAllAlike body (Walk.visible_enter hv site.location)
        (enter_outline_congr hw _ _) he he' hp hp') _
  | declaration site name slot init, active, ns, Γ, w, w', hv, hw, he, he', hp, hp' => by
      obtain ⟨hout, hslot, -⟩ := declare_congr hv.lt_size hw name
      obtain ⟨hv', -, -⟩ := Walk.visible_declare hv name
      rw [resolve_declaration] at he he' hp hp' ⊢
      rw [resolve_declaration, hslot]
      exact .declaration (resolve_emitsAlike init hv' hout he he' hp hp') _ _ _
  | operation site op left right, active, ns, Γ, w, w', hv, hw, he, he', hp, hp' => by
      obtain ⟨hl, hr⟩ := resolve_operation_ok he
      obtain ⟨hl', hr'⟩ := resolve_operation_ok he'
      have hout := resolve_outline_congr hv.lt_size hw hl hl'
      have hvl := visible_resolve hv hl
      have hvl' : Visible (left.resolve share' active w').walk.scopes.outline active
          (left.namesAfter ns :: Γ) := hout ▸ hvl
      rw [resolve_operation hl] at hp ⊢
      rw [resolve_operation hl'] at hp' ⊢
      refine .operation ?_ ?_ _ _
      · exact resolve_emitsAlike left hv hw hl hl' ((prefix_pool_resolve hvl hr).trans hp)
          ((prefix_pool_resolve hvl' hr').trans hp')
      · exact resolve_emitsAlike right hvl hout hr hr' hp hp'
  | identifier site name binding, active, ns, Γ, w, w', hv, hw, he, he', hp, hp' => by
      have hlook : w'.scopes.lookup active name = w.scopes.lookup active name :=
        Scopes.lookupFrom_congr hw name active 0
      cases hb : w.scopes.lookup active name with
      | none =>
          rw [resolve, hb] at he
          cases he
      | some b =>
          simp only [resolve, hlook, hb]
          exact .identifier _ _ _
  | literal site value constant, active, ns, Γ, w, w', hv, hw, he, he', hp, hp' => by
      cases hi : value.inline? with
      | some n =>
          simp only [resolve, hi]
          exact .inline hi _ _
      | none =>
          have hv' : Visible w'.scopes.outline active (ns :: Γ) := hw.symm ▸ hv
          obtain ⟨hpool, hplace⟩ := Scopes.register_spec hv share value
          obtain ⟨hpool', hplace'⟩ := Scopes.register_spec hv' share' value
          simp only [resolve, hi, Walk.hoist] at hp hp' ⊢
          rw [hpool] at hp
          rw [hpool'] at hp'
          rw [hplace, hplace']
          have hat := getElem?_of_isPrefix hp (Pool.getElem?_add_place share w.scopes.pool value)
          have hat' :=
            getElem?_of_isPrefix hp' (Pool.getElem?_add_place share' w'.scopes.pool value)
          exact .constant hi hat hat' _

theorem resolveAll_emitAllAlike {share share' : Bool} {pool pool' : List Number} :
    ∀ (ts : List Tree) {active : Nat} {ns : List String} {Γ : List (List String)} {w w' : Walk},
      Visible w.scopes.outline active (ns :: Γ) → w'.scopes.outline = w.scopes.outline →
      (resolveAll share active [] ts w).error = none →
      (resolveAll share' active [] ts w').error = none →
      (resolveAll share active [] ts w).walk.scopes.pool <+: pool →
      (resolveAll share' active [] ts w').walk.scopes.pool <+: pool' →
      EmitAllAlike pool pool' (resolveAll share active [] ts w).value
        (resolveAll share' active [] ts w').value
  | [], active, ns, Γ, w, w', hv, hw, he, he', hp, hp' => by
      intro final final' _ code code' hc
      exact .ok hc
  | t :: ts, active, ns, Γ, w, w', hv, hw, he, he', hp, hp' => by
      obtain ⟨ht, hts⟩ := resolveAll_cons_ok he
      obtain ⟨ht', hts'⟩ := resolveAll_cons_ok he'
      have hout := resolve_outline_congr hv.lt_size hw ht ht'
      have hvt := visible_resolve hv ht
      have hvt' : Visible (t.resolve share' active w').walk.scopes.outline active
          (t.namesAfter ns :: Γ) := hout ▸ hvt
      rw [resolveAll_cons ht] at hp ⊢
      rw [resolveAll_cons ht'] at hp' ⊢
      have iht := resolve_emitsAlike t hv hw ht ht' ((prefix_pool_resolveAll hvt hts).trans hp)
        ((prefix_pool_resolveAll hvt' hts').trans hp')
      have ihts := resolveAll_emitAllAlike ts hvt hout hts hts' hp hp'
      intro final final' hf code code' hc
      rw [emitStatements, emitStatements]
      exact (iht.statement hf hc).bind (ihts final final' hf)

end

end Tree

/-! ## Programs -/

namespace Program

/-- The numbers in a program that do not fit into an instruction, in order. -/
def hoisted (p : Program) : List Number := Tree.hoistedAll p.body

theorem pool_resolve {p : Program} {share : Bool} (h : (p.resolve share).error = none) :
    (p.resolve share).walk.scopes.pool = p.hoisted.foldl (Pool.add share) [] :=
  Tree.resolveAll_pool share p.body p.visible_start h

/-- Two walks over a program leave notes that become code alike. -/
theorem emit_sharing {p : Program} {share share' : Bool} (h : (p.resolve share).error = none)
    (h' : (p.resolve share').error = none) :
    Emitted.Agrees (p.resolve share).walk.scopes.pool (p.resolve share').walk.scopes.pool
      ((p.resolve share).value.emit (p.resolve share).walk.scopes #[])
      ((p.resolve share').value.emit (p.resolve share').walk.scopes #[]) := by
  rw [emit_resolve h, emit_resolve h']
  exact Tree.resolveAll_emitAllAlike p.body p.visible_start rfl h h' List.prefix_rfl
    List.prefix_rfl _ _ ((outline_resolve h').trans (outline_resolve h).symm) #[] #[] .nil

/-- With any two settings a program has the same error, or code that agrees. -/
theorem compile_agrees (p : Program) (s s' : Settings) :
    (∃ e, p.compile s = .error e ∧ p.compile s' = .error e) ∨
    ∃ c c', p.compile s = .ok c ∧ p.compile s' = .ok c' ∧
      c.code.Agrees c.scopes.pool c'.scopes.pool c'.code := by
  have herr : (p.resolve s'.dedupeConstants).error = (p.resolve s.dedupeConstants).error :=
    Tree.resolveAll_error_congr _ _ p.body p.visible_start.lt_size rfl
  cases he : (p.resolve s.dedupeConstants).error with
  | some e =>
      rw [he] at herr
      exact Or.inl ⟨_, compile_of_unresolved he, compile_of_unresolved herr⟩
  | none =>
      rw [he] at herr
      have hemit := emit_sharing he herr
      generalize hr : (p.resolve s.dedupeConstants).value.emit _ _ = r at hemit
      generalize hr' : (p.resolve s'.dedupeConstants).value.emit _ _ = r' at hemit
      cases hemit with
      | error => exact Or.inl ⟨_, compile_of_emit_error he hr, compile_of_emit_error herr hr'⟩
      | ok hcode =>
          exact Or.inr ⟨⟨_, _⟩, ⟨_, _⟩, compile_ok_iff.2 ⟨he, rfl, hr⟩,
            compile_ok_iff.2 ⟨herr, rfl, hr'⟩, hcode⟩

/-- The pool of a compiled program has at most one constant for each number that needs one. -/
theorem length_pool_le {p : Program} {s : Settings} {c : Compilation} (h : p.compile s = .ok c) :
    c.scopes.pool.length ≤ p.hoisted.length := by
  obtain ⟨he, hs, -⟩ := compile_ok_iff.1 h
  rw [← hs, pool_resolve he]
  exact Nat.le_trans (Pool.length_foldl_add_le _ _ _) (Nat.le_of_eq (Nat.zero_add _))

end Program

/-! ## Machines in step -/

namespace Machine

/-- The machine with another pool. -/
def withPool (m : Machine) (pool : Slots) : Machine := { m with pool := pool }

/-- The outcome of a line, on a machine with another pool. -/
def Stepped.withPool (r : Stepped) (pool : Slots) : Stepped := (r.1.withPool pool, r.2)

theorem push_withPool (limit : Nat) (m : Machine) (v : Value) (pool : Slots) :
    (m.withPool pool).push limit v = (m.push limit v).withPool pool := by
  by_cases h : m.stack.size < limit
  · have h' : (m.withPool pool).stack.size < limit := h
    rw [push_of_lt h, push_of_lt h']
    rfl
  · have h : limit ≤ m.stack.size := Nat.le_of_not_lt h
    have h' : limit ≤ (m.withPool pool).stack.size := h
    rw [push_of_le h, push_of_le h']
    rfl

theorem loadFrame_withPool (limit : Nat) (m : Machine) (slot depth : Int) (pool : Slots) :
    (m.withPool pool).loadFrame limit slot depth =
      (m.loadFrame limit slot depth).withPool pool := by
  have hframe : (m.withPool pool).frame? depth = m.frame? depth := rfl
  rw [loadFrame, loadFrame, hframe]
  cases slot? slot with
  | none => rfl
  | some i =>
      cases m.frame? depth with
      | none => rfl
      | some f => exact push_withPool ..

theorem operate_withPool (limit : Nat) (m : Machine) (a : Arithmetic) (pool : Slots) :
    (m.withPool pool).operate limit a = (m.operate limit a).withPool pool := by
  obtain ⟨stack, globals, frames, _⟩ := m
  simp only [operate, pop, withPool]
  cases stack.back? with
  | none => rfl
  | some y =>
      dsimp only
      cases stack.pop.back? with
      | none => rfl
      | some x =>
          dsimp only
          cases x.toDouble? with
          | none => rfl
          | some x =>
              cases y.toDouble? with
              | none => rfl
              | some y => exact push_withPool limit ⟨stack.pop.pop, globals, frames, _⟩ _ pool

/-- Only the load of a constant looks at the pool, and no command changes it. -/
theorem step_withPool (limit : Nat) (m : Machine) {c : Command} (pool : Slots)
    (h : ∀ place, c ≠ .loadConstant place) :
    (m.withPool pool).step limit c = (m.step limit c).withPool pool := by
  cases c with
  | loadInteger n => exact push_withPool ..
  | loadConstant place => exact absurd rfl (h place)
  | loadOuterSlot slot depth => exact loadFrame_withPool ..
  | loadSlot slot => exact loadFrame_withPool ..
  | enter => rfl
  | leave =>
      obtain ⟨stack, globals, frames, _⟩ := m
      cases frames with
      | nil => rfl
      | cons f fs => rfl
  | loadGlobal slot =>
      simp only [step]
      cases slot? slot with
      | none => rfl
      | some i => exact push_withPool ..
  | storeGlobal slot =>
      simp only [step, pop, withPool]
      cases slot? slot with
      | none => rfl
      | some i =>
          cases m.stack.back? with
          | none => rfl
          | some v => rfl
  | storeSlot slot =>
      obtain ⟨stack, globals, frames, _⟩ := m
      simp only [step, pop, withPool]
      cases slot? slot with
      | none => rfl
      | some i =>
          cases stack.back? with
          | none => rfl
          | some v =>
              cases frames with
              | nil => rfl
              | cons f fs => rfl
  | arithmetic a => exact operate_withPool ..
  | reserved op => rfl

/-- The pool of the machine has the constants `pool`, so a load finds them at their places. -/
theorem step_constant (limit : Nat) {m : Machine} {pool : List Number} (h : m.Holds pool)
    {place : Nat} {value : Number} (hp : pool[place]? = some value) :
    m.step limit (Operation.loadConstant.on [.constant place]).command =
      m.push limit (.number value) := by
  refine step_loadConstant limit ?_
  rw [h, List.getElem?_toArray, List.getElem?_map, hp]
  rfl

/-- No command changes the pool. -/
theorem pool_step (limit : Nat) (m : Machine) (c : Command) : (m.step limit c).1.pool = m.pool := by
  by_cases h : ∀ place, c ≠ .loadConstant place
  · exact congrArg (fun r : Stepped => r.1.pool) (step_withPool limit m m.pool h)
  · rw [not_forall] at h
    obtain ⟨place, hc⟩ := h
    obtain rfl := not_not.1 hc
    rw [step]
    cases m.constant? place with
    | none => rfl
    | some v => exact congrArg (fun r : Stepped => r.1.pool) (push_withPool limit m v m.pool)

/-- Instructions that agree do the same on machines that hold their pools. -/
theorem step_agree (limit : Nat) {m : Machine} {slots : Slots} {pool pool' : List Number}
    (hm : m.Holds pool) (hm' : (m.withPool slots).Holds pool') {i i' : Instruction}
    (h : i.Agrees pool pool' i') (hi : i.isComplete) :
    (m.withPool slots).step limit i'.command = (m.step limit i.command).withPool slots := by
  cases h with
  | constant hp hp' =>
      rw [step_constant limit hm hp, step_constant limit hm' hp']
      exact push_withPool ..
  | same hne =>
      refine step_withPool limit m slots ?_
      intro place hc
      refine hne ?_
      rw [← (Instruction.command_spec hi).1, hc]
      rfl

/-- Code that agrees runs alike on machines that hold its pools: it ends in the same state but for
the pool, and with the same error at the same place. -/
theorem runLines_agree (limit : Nat) {pool pool' : List Number} {code code' : List Instruction}
    (h : List.Forall₂ (Instruction.Agrees pool pool') code code') (hcode : ∀ i ∈ code, i.isComplete)
    {slots : Slots} :
    ∀ {m : Machine}, m.Holds pool → (m.withPool slots).Holds pool' →
      ∀ (dispatched dispatched' : Array Dispatch) (p : Nat),
      ((m.withPool slots).runLines limit dispatched' (Line.ofInstructions p code')).error =
          (m.runLines limit dispatched (Line.ofInstructions p code)).error ∧
        ((m.withPool slots).runLines limit dispatched' (Line.ofInstructions p code')).machine =
          (m.runLines limit dispatched (Line.ofInstructions p code)).machine.withPool slots := by
  induction h with
  | nil =>
      intro m _ _ dispatched dispatched' p
      exact ⟨rfl, rfl⟩
  | @cons i i' is is' hi _ ih =>
      intro m hm hm' dispatched dispatched' p
      have hstep := step_agree limit hm hm' hi (hcode i (List.mem_cons_self ..))
      have hpool := pool_step limit m i.command
      have hwidth : i'.width = i.width := by
        cases hi with
        | same _ => rfl
        | constant _ _ => rfl
      rw [Line.ofInstructions, Line.ofInstructions, runLines, runLines, hwidth]
      simp only [hstep]
      cases hm₁ : m.step limit i.command with
      | mk m₁ fault =>
          rw [hm₁] at hpool
          cases fault with
          | some fault => exact ⟨rfl, rfl⟩
          | none =>
              exact ih (fun j hj => hcode j (List.mem_cons_of_mem i hj)) (hm.of_pool_eq hpool)
                (hm'.of_pool_eq rfl) _ _ _

end Machine

/-- Two runs of code that agrees end in the same state but for the pool, and with the same error. -/
theorem Compilation.run_agree {p p' : Program} {s s' : Settings} {c c' : Compilation}
    (hc : p.compile s = .ok c) (hc' : p'.compile s' = .ok c')
    (h : c.code.Agrees c.scopes.pool c'.scopes.pool c'.code)
    (hpool : c.scopes.pool.length ≤ Machine.maxSlot + 1)
    (hpool' : c'.scopes.pool.length ≤ Machine.maxSlot + 1) (m m' : Machine) (limit : Nat) :
    (m'.run limit c'.words c'.constants).error = (m.run limit c.words c.constants).error ∧
      (m'.run limit c'.words c'.constants).machine.globals =
        (m.run limit c.words c.constants).machine.globals := by
  have hcode := (Program.lowers_of_compile hc).1.isComplete
  have hcode' := (Program.lowers_of_compile hc').1.isComplete
  rw [← size_constants] at hpool hpool'
  have hholds : Machine.Holds
      ((Machine.holding c.scopes.pool).withPool (Machine.holding c'.scopes.pool).pool)
      c'.scopes.pool := rfl
  rw [run_of_le hpool, run_of_le hpool', words, words, Line.ofWords_encode hcode,
    Line.ofWords_encode hcode', List.toList_toArray, List.toList_toArray]
  have hrun := Machine.runLines_agree limit h hcode (m := .holding c.scopes.pool) rfl hholds
    #[] #[] 0
  exact ⟨hrun.1, hrun.2.symm ▸ rfl⟩

/-! ## The engine -/

namespace Engine

/-- The variables depend on the names in the contexts and on the global slots. -/
theorem globals_congr {e e' : Engine}
    (hnames : e'.compilation.scopes.outline = e.compilation.scopes.outline)
    (hglobals : e'.machine.globals = e.machine.globals) : e'.globals = e.globals := by
  cases hx : e.compilation.scopes.find? 0 with
  | none =>
      have h : e.compilation.scopes.global? = none := hx
      have h' : e'.compilation.scopes.global? = none := Scopes.find?_none_congr hnames hx
      rw [globals, globals, h, h']
  | some x =>
      obtain ⟨x', hx', hout⟩ := Scopes.find?_congr hnames hx
      have hlist : x'.nameList = x.nameList := congrArg Outline.names hout
      rw [globals_of_find? hx, globals_of_find? hx', hlist, hglobals]

/-- With any two settings that leave the same room on the stack, an engine comes to the same result
and the same variables, as long as no pool can be too long. -/
theorem executeTree_agree {e e' : Engine}
    (hstack : e'.settings.maxStackSize = e.settings.maxStackSize) {p : Program}
    (h : p.hoisted.length ≤ Machine.maxSlot + 1) :
    (e'.executeTree p).result.result = (e.executeTree p).result.result ∧
      (e'.executeTree p).result.engine.globals = (e.executeTree p).result.engine.globals := by
  obtain ⟨error, hc, hc'⟩ | ⟨c, c', hc, hc', hcode⟩ := p.compile_agrees e.settings e'.settings
  · rw [executeTree_of_compile_error hc, executeTree_of_compile_error hc']
    exact ⟨rfl, rfl⟩
  · have hrun := Compilation.run_agree hc hc' hcode (Nat.le_trans (Program.length_pool_le hc) h)
      (Nat.le_trans (Program.length_pool_le hc') h) {} {} e.settings.maxStackSize
    have houtline : c'.scopes.outline = c.scopes.outline :=
      (Program.lowers_of_compile hc').2.trans (Program.lowers_of_compile hc).2.symm
    rw [executeTree_of_compile hc rfl, executeTree_of_compile hc' rfl, hstack]
    exact ⟨by rw [hrun.1], globals_congr houtline hrun.2⟩

/-- Whether equal constants share a place is not observed, as long as the machine has room for a
place of its own for each of them.  A program has the same error either way, or code that differs
only in the places of constants, which name the same number in the two pools; and the engine comes
to the same result and leaves the same variables. -/
theorem executeTree_sharing {e e' : Engine} {share : Bool}
    (hs : e'.settings = { e.settings with dedupeConstants := share }) {p : Program}
    (h : p.hoisted.length ≤ 65536) :
    ((∃ error, p.compile e.settings = .error error ∧ p.compile e'.settings = .error error) ∨
      ∃ c c', p.compile e.settings = .ok c ∧ p.compile e'.settings = .ok c' ∧
        c.code.Agrees c.scopes.pool c'.scopes.pool c'.code) ∧
    (e'.executeTree p).result.result = (e.executeTree p).result.result ∧
    (e'.executeTree p).result.engine.globals = (e.executeTree p).result.engine.globals :=
  ⟨p.compile_agrees e.settings e'.settings, executeTree_agree (by rw [hs]) h⟩

end Engine

/-- The program `var a = 0.0; var b = -0.0; var c = 0.0;`, with a zero of each sign. -/
def Program.zeros : Program where
  site := .nowhere
  body := [
    .declaration .nowhere "a" none (.literal .nowhere (.float ⟨0⟩) none),
    .declaration .nowhere "b" none (.literal .nowhere (.float ⟨0x8000000000000000⟩) none),
    .declaration .nowhere "c" none (.literal .nowhere (.float ⟨0⟩) none)]

theorem Program.lowers_zeros (share : Bool) :
    ∃ code, Lowers share [] [] [] zeros.body code (zeros.hoisted.foldl (Pool.add share) []) :=
  ⟨_, .declaration (.constant rfl)
    (.declaration (.constant rfl) (.declaration (.constant rfl) .nil))⟩

theorem Engine.executeTree_sharing_zeros :
    Program.zeros.hoisted.length ≤ 65536 ∧
    (∃ c c', Program.zeros.compile { dedupeConstants := false } = .ok c ∧
      Program.zeros.compile { dedupeConstants := true } = .ok c' ∧
      c.scopes.pool = [.float ⟨0⟩, .float ⟨0x8000000000000000⟩, .float ⟨0⟩] ∧
      c'.scopes.pool = [.float ⟨0⟩, .float ⟨0x8000000000000000⟩] ∧
      c.code.Agrees c.scopes.pool c'.scopes.pool c'.code) ∧
    (executeTree { settings := { dedupeConstants := true } } .zeros).result.result = .ok () ∧
    (executeTree { settings := { dedupeConstants := true } } .zeros).result.engine.globals =
      [("a", .number (.float ⟨0⟩)), ("b", .number (.float ⟨0x8000000000000000⟩)),
        ("c", .number (.float ⟨0⟩))] := by
  obtain ⟨_, hlow⟩ := Program.lowers_zeros false
  obtain ⟨_, hlow'⟩ := Program.lowers_zeros true
  obtain ⟨c, hc, -, hpool⟩ :
      ∃ c : Compilation, Program.zeros.compile { dedupeConstants := false } = .ok c ∧ _ :=
    Program.compile_of_lowers hlow
  obtain ⟨c', hc', -, hpool'⟩ :
      ∃ c : Compilation, Program.zeros.compile { dedupeConstants := true } = .ok c ∧ _ :=
    Program.compile_of_lowers hlow'
  have hfit : c.Fits Program.zeros ({} : Settings).maxStackSize :=
    (Compilation.fits_iff hc _).2 ⟨⟨by decide, by decide, by decide⟩, by rw [hpool]; decide⟩
  have hplain := globals_of_fits (e := {}) hc hfit rfl
  have hs : ({ settings := { dedupeConstants := true } } : Engine).settings =
      { ({} : Engine).settings with dedupeConstants := true } := rfl
  obtain ⟨hcompile, hresult, hglobals⟩ := executeTree_sharing hs (p := Program.zeros) (by decide)
  obtain ⟨error, herror, -⟩ | ⟨d, d', hd, hd', hcode⟩ := hcompile
  · cases hc.symm.trans herror
  · cases hc.symm.trans hd
    cases hc'.symm.trans hd'
    exact ⟨by decide, ⟨c, c', hc, hc', hpool, hpool', hcode⟩, hresult.trans hplain.1,
      hglobals.trans hplain.2⟩

end BlockScript
