import BlockScript.Machine.Value
import BlockScript.Proofs.Tree.Resolution

/-!
# Interpreting trees

What a program means, said without contexts, slots and code.  An open block is a map from names to
values, and the open blocks are a list of maps, the innermost first and that of the outermost block
last.  A block runs its statements with a map of its own, which is dropped at its end.  A
declaration binds its name to a hole in the innermost map unless it is bound there, and then writes
the initial value to it.  An identifier means the innermost map that has it.

The interpreter gives its maps back in either outcome, so that one can also say what a program did
before it failed.  A statement reaches only the innermost map (`Tree.interpretAll_frame`): whatever
a block does, the maps around it are as they were.
-/

namespace BlockScript

/-! ## Maps -/

/-- The variables of an open block with their values, in the order of their declaration. -/
abbrev Bindings := List (String × Value)

namespace Bindings

/-- The names in a map. -/
def names (b : Bindings) : List String := b.map Prod.fst

/-- The value of a name. -/
def get? (b : Bindings) (name : String) : Option Value := b.lookup name

/-- Writes a value to a name. -/
def write (name : String) (v : Value) : Bindings → Bindings
  | [] => [(name, v)]
  | (x, w) :: b => if x = name then (x, v) :: b else (x, w) :: write name v b

/-- Binds a name to a hole, unless it is bound. -/
def declare (b : Bindings) (name : String) : Bindings :=
  if name ∈ b.names then b else b.write name .hole

@[simp] theorem names_cons (x : String) (v : Value) (b : Bindings) :
    names ((x, v) :: b) = x :: names b := rfl

theorem length_names (b : Bindings) : b.names.length = b.length := List.length_map ..

theorem idxOf_lt {b : Bindings} {name : String} (h : name ∈ b.names) :
    b.names.idxOf name < b.length := by
  rw [← length_names]
  exact List.idxOf_lt_length_iff.2 h

theorem names_write (name : String) (v : Value) (b : Bindings) :
    (b.write name v).names = enroll b.names name := by
  induction b with
  | nil => rfl
  | cons xw b ih =>
      obtain ⟨x, w⟩ := xw
      rw [write]
      by_cases h : x = name
      · rw [if_pos h, names_cons, names_cons, enroll_of_mem (by simp [h])]
      · rw [if_neg h, names_cons, names_cons, ih]
        by_cases hm : name ∈ names b
        · rw [enroll_of_mem hm, enroll_of_mem (List.mem_cons_of_mem x hm)]
        · rw [enroll_of_not_mem hm, enroll_of_not_mem (by simp [hm, Ne.symm h])]
          rfl

theorem names_declare (b : Bindings) (name : String) :
    (b.declare name).names = enroll b.names name := by
  rw [declare]
  by_cases h : name ∈ b.names
  · rw [if_pos h, enroll_of_mem h]
  · rw [if_neg h, names_write]

/-- A write is seen at the place of the name and nowhere else. -/
theorem getElem?_write (name : String) (v : Value) (b : Bindings) :
    ∀ i : Nat, (b.write name v)[i]? = if i = b.names.idxOf name then some (name, v) else b[i]? := by
  induction b with
  | nil =>
      intro i
      cases i with
      | zero => rfl
      | succ i => rfl
  | cons xw b ih =>
      obtain ⟨x, w⟩ := xw
      intro i
      rw [write, names_cons]
      by_cases h : x = name
      · subst h
        rw [if_pos rfl, List.idxOf_cons_self]
        cases i with
        | zero => rfl
        | succ i => rfl
      · rw [if_neg h, List.idxOf_cons_ne _ h]
        cases i with
        | zero => simp
        | succ i => simp [ih i]

/-- The value of a name is that at its place. -/
theorem get?_eq (b : Bindings) (name : String) :
    b.get? name = if name ∈ b.names then (b[b.names.idxOf name]?).map Prod.snd else none := by
  induction b with
  | nil => rfl
  | cons xw b ih =>
      obtain ⟨x, w⟩ := xw
      rw [get?, List.lookup_cons, names_cons]
      by_cases h : x = name
      · subst h
        simp
      · rw [List.idxOf_cons_ne _ h, beq_eq_false_iff_ne.2 (Ne.symm h)]
        simp only [List.mem_cons, Ne.symm h, false_or]
        exact ih

theorem exists_get? {b : Bindings} {name : String} (h : name ∈ b.names) :
    ∃ v, b.get? name = some v := by
  rw [get?_eq, if_pos h, List.getElem?_eq_getElem (idxOf_lt h)]
  exact ⟨_, rfl⟩

theorem mem_of_get? {b : Bindings} {name : String} {v : Value} (h : b.get? name = some v) :
    (name, v) ∈ b := by
  induction b with
  | nil => cases h
  | cons xw b ih =>
      obtain ⟨x, w⟩ := xw
      rw [get?, List.lookup_cons] at h
      by_cases hx : name = x
      · subst hx
        simp at h
        simp [h]
      · simp only [beq_eq_false_iff_ne.2 hx] at h
        exact List.mem_cons_of_mem _ (ih h)

/-- A write to one name is not seen at another. -/
theorem get?_write_ne {name x : String} (h : x ≠ name) (v : Value) (b : Bindings) :
    (b.write name v).get? x = b.get? x := by
  induction b with
  | nil => simp [write, get?, List.lookup_cons, beq_eq_false_iff_ne.2 h]
  | cons yw b ih =>
      obtain ⟨y, w⟩ := yw
      rw [write]
      by_cases hy : y = name
      · subst hy
        simp [get?, List.lookup_cons, beq_eq_false_iff_ne.2 h]
      · rw [if_neg hy, get?, get?, List.lookup_cons, List.lookup_cons]
        split
        · rfl
        · exact ih

/-- The last write to a name is what it has. -/
theorem write_write (name : String) (v w : Value) (b : Bindings) :
    (b.write name v).write name w = b.write name w := by
  induction b with
  | nil => simp [write]
  | cons yu b ih =>
      obtain ⟨y, u⟩ := yu
      by_cases hy : y = name
      · simp [write, hy]
      · simp [write, hy, ih]

/-- The hole of a new name does not outlast the first write to it. -/
theorem write_declare (name : String) (v : Value) (b : Bindings) :
    (b.declare name).write name v = b.write name v := by
  rw [declare]
  split
  · rfl
  · exact write_write name .hole v b

end Bindings

/-- The value of a name in the innermost map that has it. -/
def valueOf? (env : List Bindings) (name : String) : Option Value := env.findSome? (·.get? name)

/-- A value comes from one of the maps. -/
theorem mem_of_valueOf? {env : List Bindings} {name : String} {v : Value}
    (h : valueOf? env name = some v) : ∃ b ∈ env, (name, v) ∈ b := by
  obtain ⟨b, hb, hget⟩ := List.exists_of_findSome?_eq_some h
  exact ⟨b, hb, Bindings.mem_of_get? hget⟩

theorem valueOf?_write_ne {name x : String} (h : x ≠ name) (v : Value) (b : Bindings)
    (outer : List Bindings) : valueOf? (b.write name v :: outer) x = valueOf? (b :: outer) x := by
  simp only [valueOf?, List.findSome?_cons, Bindings.get?_write_ne h]

/-! ## Expressions -/

/-- Why the interpreter stops. -/
inductive Failure where
  /-- Arithmetic on a value that is no number. -/
  | nonNumeric (kind : String)
  /-- The tree is no program, or a name in it means nothing. -/
  | meaningless
deriving DecidableEq

/-- The value as an operand of arithmetic. -/
def Value.widen (v : Value) : Except Failure Double :=
  v.toDouble?.elim (.error (.nonNumeric v.kindName)) .ok

/-- The value of an expression: the left operand before the right one, and both before either is
widened. -/
def Tree.evaluate (env : List Bindings) : Tree → Except Failure Value
  | .literal _ value _ => .ok (.number value)
  | .identifier _ name _ => (valueOf? env name).elim (.error .meaningless) .ok
  | .operation _ (.arithmetic a) left right => do
    let x ← left.evaluate env
    let y ← right.evaluate env
    let x ← x.widen
    let y ← y.widen
    return .number (.float (a.apply x y))
  | .operation _ .equal _ _ | .operation _ .notEqual _ _ => .error .meaningless
  | .block .. | .declaration .. => .error .meaningless

/-- An expression with a value declares nothing. -/
theorem Tree.namesAfter_of_evaluate {env : List Bindings} (ns : List String) :
    ∀ (t : Tree) {v : Value}, t.evaluate env = .ok v → t.namesAfter ns = ns
  | .literal .., _, _ => rfl
  | .identifier .., _, _ => rfl
  | .block .., _, _ => rfl
  | .declaration .., _, h => by cases h
  | .operation _ op left right, v, h => by
      cases op with
      | equal => cases h
      | notEqual => cases h
      | arithmetic a =>
          rw [evaluate] at h
          cases hl : left.evaluate env with
          | error f => rw [hl] at h; cases h
          | ok x =>
              cases hr : right.evaluate env with
              | error f => rw [hl, hr] at h; cases h
              | ok y => rw [namesAfter, namesAfter_of_evaluate ns left hl,
                  namesAfter_of_evaluate ns right hr]

/-! ## Statements -/

/-- The maps at the end, and why it is the end if it is not that of the program. -/
structure Interpreted where
  /-- The open blocks, the innermost first. -/
  env : List Bindings
  /-- The failure, if there was one. -/
  failure : Option Failure := none

/-- The map of the outermost block. -/
def Interpreted.root (r : Interpreted) : Bindings := r.env.getLastD []

namespace Tree

mutual

/-- Runs a statement. -/
def interpret (env : List Bindings) : Tree → Interpreted
  | block _ body =>
    let r := interpretAll ([] :: env) body
    match r.failure with
    | some f => ⟨r.env, some f⟩
    | none => ⟨r.env.tail, none⟩
  | declaration _ name _ init =>
    match env with
    | [] => ⟨[], some .meaningless⟩
    | b :: outer =>
      match init.evaluate (b.declare name :: outer) with
      | .error f => ⟨b.declare name :: outer, some f⟩
      | .ok v => ⟨(b.declare name).write name v :: outer, none⟩
  | operation .. | identifier .. | literal .. => ⟨env, some .meaningless⟩

/-- Runs statements in order. -/
def interpretAll (env : List Bindings) : List Tree → Interpreted
  | [] => ⟨env, none⟩
  | t :: ts =>
    let r := interpret env t
    match r.failure with
    | some f => ⟨r.env, some f⟩
    | none => interpretAll r.env ts

end

end Tree

/-! ## What a statement reaches -/

/-- The maps `outer` are as they were, and the map inside them has names among `ns`.  Without a
failure it is the innermost one and has all of them. -/
def Interpreted.Keeps (r : Interpreted) (outer : List Bindings) (ns : List String) : Prop :=
  ∃ inner b, r.env = inner ++ b :: outer ∧ b.names <+: ns ∧
    (r.failure = none → inner = [] ∧ b.names = ns)

theorem Interpreted.Keeps.fail {r : Interpreted} {outer : List Bindings} {ns ns' : List String}
    (h : r.Keeps outer ns) (f : Failure) (hns : ns <+: ns') :
    Interpreted.Keeps ⟨r.env, some f⟩ outer ns' := by
  obtain ⟨inner, b, henv, hnames, -⟩ := h
  exact ⟨inner, b, henv, hnames.trans hns, by intro hnone; cases hnone⟩

/-- What there is without a failure. -/
theorem Interpreted.Keeps.ok {r : Interpreted} {outer : List Bindings} {ns : List String}
    (h : r.Keeps outer ns) (hf : r.failure = none) :
    ∃ b, r = ⟨b :: outer, none⟩ ∧ b.names = ns := by
  obtain ⟨env, failure⟩ := r
  obtain ⟨inner, b, henv, -, hdone⟩ := h
  obtain ⟨rfl, hnames⟩ := hdone hf
  cases hf
  cases henv
  exact ⟨b, rfl, hnames⟩

namespace Tree

theorem interpretAll_cons (env : List Bindings) (t : Tree) (ts : List Tree) :
    interpretAll env (t :: ts) =
      match (t.interpret env).failure with
      | some f => ⟨(t.interpret env).env, some f⟩
      | none => interpretAll (t.interpret env).env ts := by
  rw [interpretAll]

theorem interpretAll_singleton (env : List Bindings) (t : Tree) :
    interpretAll env [t] = t.interpret env := by
  rw [interpretAll_cons]
  cases hr : t.interpret env with
  | mk env' failure =>
      cases failure with
      | none => rfl
      | some f => rfl

/-- Statements behind one that runs to its end run from there. -/
theorem interpretAll_cons_ok {env env' : List Bindings} {t : Tree}
    (h : t.interpret env = ⟨env', none⟩) (ts : List Tree) :
    interpretAll env (t :: ts) = interpretAll env' ts := by
  rw [interpretAll_cons, h]

/-- Statements behind one that fails do nothing. -/
theorem interpretAll_cons_fail {env env' : List Bindings} {t : Tree} {f : Failure}
    (h : t.interpret env = ⟨env', some f⟩) (ts : List Tree) :
    interpretAll env (t :: ts) = ⟨env', some f⟩ := by
  rw [interpretAll_cons, h]

mutual

/-- A statement reaches only the map of the block that it stands in. -/
theorem interpret_frame : ∀ (t : Tree) (b : Bindings) (outer : List Bindings),
    (t.interpret (b :: outer)).Keeps outer (t.namesAfter b.names)
  | block site body, b, outer => by
      obtain ⟨inner, b₁, henv, -, hdone⟩ := interpretAll_frame body [] (b :: outer)
      rw [interpret]
      cases hf : (interpretAll ([] :: b :: outer) body).failure with
      | some f =>
          refine ⟨inner ++ [b₁], b, ?_, List.prefix_rfl, by intro hnone; cases hnone⟩
          simp [henv]
      | none =>
          obtain ⟨rfl, -⟩ := hdone hf
          exact ⟨[], b, by simp [henv], List.prefix_rfl, fun _ => ⟨rfl, rfl⟩⟩
  | declaration site name slot init, b, outer => by
      have hpre :
          (b.declare name).names <+: (declaration site name slot init).namesAfter b.names := by
        rw [Bindings.names_declare, namesAfter]
        exact init.prefix_namesAfter _
      rw [interpret]
      cases hv : init.evaluate (b.declare name :: outer) with
      | error f => exact ⟨[], _, rfl, hpre, by intro hnone; cases hnone⟩
      | ok v =>
          have hnames : ((b.declare name).write name v).names =
              (declaration site name slot init).namesAfter b.names := by
            rw [Bindings.names_write, Bindings.names_declare, namesAfter,
              namesAfter_of_evaluate _ init hv]
            exact enroll_of_mem (mem_enroll.2 (Or.inr rfl))
          exact ⟨[], _, rfl, hnames ▸ List.prefix_rfl, fun _ => ⟨rfl, hnames⟩⟩
  | operation site op left right, b, outer =>
      ⟨[], b, rfl, (operation site op left right).prefix_namesAfter _, by intro hnone; cases hnone⟩
  | identifier .., b, outer => ⟨[], b, rfl, List.prefix_rfl, by intro hnone; cases hnone⟩
  | literal .., b, outer => ⟨[], b, rfl, List.prefix_rfl, by intro hnone; cases hnone⟩

/-- Statements reach only the map of the block that they stand in. -/
theorem interpretAll_frame : ∀ (ts : List Tree) (b : Bindings) (outer : List Bindings),
    (interpretAll (b :: outer) ts).Keeps outer (namesAfterAll b.names ts)
  | [], b, outer => ⟨[], b, rfl, List.prefix_rfl, fun _ => ⟨rfl, rfl⟩⟩
  | t :: ts, b, outer => by
      have ht := interpret_frame t b outer
      rw [interpretAll_cons]
      cases hf : (t.interpret (b :: outer)).failure with
      | some f => exact ht.fail f (prefix_namesAfterAll ts _)
      | none =>
          obtain ⟨inner, b₁, henv, -, hdone⟩ := ht
          obtain ⟨rfl, hnames⟩ := hdone hf
          have hts := interpretAll_frame ts b₁ outer
          rw [hnames] at hts
          simp only [henv]
          exact hts

end

/-- The names after statements that run to their end. -/
theorem names_of_interpretAll {ts : List Tree} {b b' : Bindings} {outer : List Bindings}
    (h : interpretAll (b :: outer) ts = ⟨b' :: outer, none⟩) :
    b'.names = namesAfterAll b.names ts := by
  obtain ⟨b₁, heq, hnames⟩ := (interpretAll_frame ts b outer).ok (by rw [h])
  cases h.symm.trans heq
  exact hnames

/-- The first of statements that run to their end does so, and the others go on from there. -/
theorem interpretAll_cons_inv {t : Tree} {ts : List Tree} {b b' : Bindings} {outer : List Bindings}
    (h : interpretAll (b :: outer) (t :: ts) = ⟨b' :: outer, none⟩) :
    ∃ b₁, t.interpret (b :: outer) = ⟨b₁ :: outer, none⟩ ∧
      interpretAll (b₁ :: outer) ts = ⟨b' :: outer, none⟩ := by
  cases hf : (t.interpret (b :: outer)).failure with
  | some f =>
      rw [interpretAll_cons] at h
      simp [hf] at h
  | none =>
      obtain ⟨b₁, ht, -⟩ := (interpret_frame t b outer).ok hf
      rw [interpretAll_cons_ok ht] at h
      exact ⟨b₁, ht, h⟩

/-- A block that runs to its end leaves the maps as they were, and its statements run to their
end. -/
theorem interpret_block_inv {site : Site} {body : List Tree} {b : Bindings} {env : List Bindings}
    {outer : List Bindings} (h : (block site body).interpret (b :: outer) = ⟨env, none⟩) :
    env = b :: outer ∧ ∃ b₁, interpretAll ([] :: b :: outer) body = ⟨b₁ :: b :: outer, none⟩ := by
  rw [interpret] at h
  cases hf : (interpretAll ([] :: b :: outer) body).failure with
  | some f => simp [hf] at h
  | none =>
      obtain ⟨b₁, hbody, -⟩ := (interpretAll_frame body [] (b :: outer)).ok hf
      rw [hbody] at h
      cases h
      exact ⟨rfl, b₁, hbody⟩

theorem interpret_block_ok {site : Site} {body : List Tree} {b₁ : Bindings} {env : List Bindings}
    (h : interpretAll ([] :: env) body = ⟨b₁ :: env, none⟩) :
    (block site body).interpret env = ⟨env, none⟩ := by
  rw [interpret, h]
  rfl

end Tree

/-! ## Why a program fails

No program makes a text, so the only value that it can find where a number belongs is the hole of a
variable that is used before it has a value. -/

/-- The value is no text. -/
def Value.Plain (v : Value) : Prop := ∀ s, v ≠ .string s

/-- No map has a text. -/
def AllPlain (env : List Bindings) : Prop := ∀ b ∈ env, ∀ x ∈ b, x.2.Plain

theorem Value.plain_hole : Plain .hole := fun _ h => nomatch h

theorem Value.plain_number (n : Number) : Plain (.number n) := fun _ h => nomatch h

/-- If the failure is one of arithmetic, it is that on a hole. -/
def Failure.AtHole (f : Failure) : Prop := ∀ kind, f = .nonNumeric kind → kind = "hole"

theorem Failure.atHole_meaningless : AtHole .meaningless := fun _ h => nomatch h

/-- The only plain value that is no number is the hole. -/
theorem Value.Plain.widen {v : Value} (h : v.Plain) {f : Failure} (hw : v.widen = .error f) :
    f.AtHole := by
  cases v with
  | hole =>
      cases hw
      intro kind hk
      cases hk
      rfl
  | string s => exact absurd rfl (h s)
  | number n => cases hw

theorem Bindings.mem_write {name : String} {v : Value} {b : Bindings} {x : String × Value}
    (h : x ∈ b.write name v) : x ∈ b ∨ x = (name, v) := by
  induction b with
  | nil => exact Or.inr (List.mem_singleton.1 h)
  | cons yw b ih =>
      obtain ⟨y, w⟩ := yw
      rw [write] at h
      by_cases hy : y = name
      · rw [if_pos hy, List.mem_cons] at h
        obtain rfl | h := h
        · exact Or.inr (by rw [hy])
        · exact Or.inl (List.mem_cons_of_mem _ h)
      · rw [if_neg hy, List.mem_cons] at h
        obtain rfl | h := h
        · exact Or.inl (List.mem_cons_self ..)
        · exact (ih h).imp_left (List.mem_cons_of_mem _)

namespace AllPlain

variable {b : Bindings} {env : List Bindings}

theorem cons (hb : ∀ x ∈ b, x.2.Plain) (h : AllPlain env) : AllPlain (b :: env) := by
  intro b' hb'
  obtain rfl | hb' := List.mem_cons.1 hb'
  · exact hb
  · exact h b' hb'

theorem tail (h : AllPlain env) : AllPlain env.tail :=
  fun b hb => h b (List.mem_of_mem_tail hb)

theorem write (h : AllPlain (b :: env)) (name : String) {v : Value} (hv : v.Plain) :
    AllPlain (b.write name v :: env) := by
  refine cons ?_ (tail h)
  intro x hx
  obtain hx | rfl := Bindings.mem_write hx
  · exact h b (List.mem_cons_self ..) x hx
  · exact hv

theorem declare (h : AllPlain (b :: env)) (name : String) : AllPlain (b.declare name :: env) := by
  rw [Bindings.declare]
  by_cases hn : name ∈ b.names
  · rw [if_pos hn]
    exact h
  · rw [if_neg hn]
    exact h.write name Value.plain_hole

theorem valueOf? (h : AllPlain env) {name : String} {v : Value}
    (hv : BlockScript.valueOf? env name = some v) : v.Plain := by
  obtain ⟨b, hb, hx⟩ := mem_of_valueOf? hv
  exact h b hb _ hx

end AllPlain

namespace Tree

/-- An expression among plain values fails at a hole, and otherwise its value is plain. -/
theorem evaluate_plain {env : List Bindings} (h : AllPlain env) : ∀ t : Tree,
    match t.evaluate env with
    | .ok v => v.Plain
    | .error f => f.AtHole
  | literal _ value _ => Value.plain_number value
  | identifier _ name _ => by
      rw [evaluate]
      cases hv : valueOf? env name with
      | none => exact Failure.atHole_meaningless
      | some v => exact h.valueOf? hv
  | operation _ (.arithmetic a) left right => by
      have hpl := evaluate_plain h left
      have hpr := evaluate_plain h right
      rw [evaluate]
      cases hl : left.evaluate env with
      | error f =>
          rw [hl] at hpl
          exact hpl
      | ok x =>
          cases hr : right.evaluate env with
          | error f =>
              rw [hr] at hpr
              exact hpr
          | ok y =>
              rw [hl] at hpl
              rw [hr] at hpr
              simp only [bind, Except.bind]
              cases hx : x.widen with
              | error f => exact hpl.widen hx
              | ok u =>
                  cases hy : y.widen with
                  | error f => exact hpr.widen hy
                  | ok w => exact Value.plain_number _
  | operation _ .equal _ _ => Failure.atHole_meaningless
  | operation _ .notEqual _ _ => Failure.atHole_meaningless
  | block _ _ => Failure.atHole_meaningless
  | declaration _ _ _ _ => Failure.atHole_meaningless

end Tree

/-- All maps are plain, and the failure, if there is one, is at a hole. -/
def Interpreted.Plain (r : Interpreted) : Prop :=
  AllPlain r.env ∧ ∀ f, r.failure = some f → f.AtHole

namespace Tree

mutual

theorem interpret_plain : ∀ (t : Tree) {env : List Bindings}, AllPlain env →
    (t.interpret env).Plain
  | block site body, env, h => by
      have ih := interpretAll_plain body (h.cons (b := []) (fun x hx => nomatch hx))
      rw [interpret]
      cases hf : (interpretAll ([] :: env) body).failure with
      | some f => exact ⟨ih.1, fun g hg => ih.2 g (hf.trans hg)⟩
      | none => exact ⟨ih.1.tail, fun g hg => nomatch hg⟩
  | declaration site name slot init, env, h => by
      cases env with
      | nil => exact ⟨h, fun g hg => by cases hg; exact Failure.atHole_meaningless⟩
      | cons b outer =>
          have hev := evaluate_plain (h.declare name) init
          rw [interpret]
          cases hv : init.evaluate (b.declare name :: outer) with
          | error f =>
              rw [hv] at hev
              exact ⟨h.declare name, fun g hg => by cases hg; exact hev⟩
          | ok v =>
              rw [hv] at hev
              exact ⟨(h.declare name).write name hev, fun g hg => nomatch hg⟩
  | operation .., env, h => ⟨h, fun g hg => by cases hg; exact Failure.atHole_meaningless⟩
  | identifier .., env, h => ⟨h, fun g hg => by cases hg; exact Failure.atHole_meaningless⟩
  | literal .., env, h => ⟨h, fun g hg => by cases hg; exact Failure.atHole_meaningless⟩

theorem interpretAll_plain : ∀ (ts : List Tree) {env : List Bindings}, AllPlain env →
    (interpretAll env ts).Plain
  | [], env, h => ⟨h, fun g hg => nomatch hg⟩
  | t :: ts, env, h => by
      have ht := interpret_plain t h
      rw [interpretAll_cons]
      cases hf : (t.interpret env).failure with
      | some f => exact ⟨ht.1, fun g hg => ht.2 g (hf.trans hg)⟩
      | none => exact interpretAll_plain ts ht.1

end

end Tree

/-- Runs a program. -/
def Program.interpret (p : Program) : Interpreted := Tree.interpretAll [[]] p.body

/-- A program that runs to its end leaves one map, with the names that it declares. -/
theorem Program.interpret_ok {p : Program} (h : p.interpret.failure = none) :
    ∃ b, p.interpret = ⟨[b], none⟩ ∧ b.names = Tree.namesAfterAll [] p.body :=
  (Tree.interpretAll_frame p.body [] []).ok h

/-- Where a program stops at a value that is no number, this is a hole. -/
theorem Program.interpret_plain (p : Program) : p.interpret.Plain := by
  refine Tree.interpretAll_plain p.body ?_
  intro b hb x hx
  rw [List.mem_singleton.1 hb] at hx
  exact nomatch hx

end BlockScript
