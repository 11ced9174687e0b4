import BlockScript.Proofs.Scope.Outline

/-!
# Histories of an arena

An arena changes by requests: to open a context, to declare a variable, to register a constant.
The reply to a request is a number, the place of the new context, the slot of the variable or the
place of the constant in its pool.  A *history* is an arena with its *log*, which has the requests
that made the arena from nothing, each with its reply.

The main statement is that the log and the arena say the same (`History.Consistent`).  The `i`-th
opening in the log made the context `i`.  The declarations in a context, without the repeated ones,
are its variables.  The registrations below a context without a parent are the entries of its pool.
A log only grows, so a reply stays right for ever.

The proof looks at the arena through two lists: its outline, and the pools of all contexts.  What a
request does to them is said once, and each part of the statement is an invariant of the requests.
-/

namespace BlockScript

/-- A change of an arena. -/
inductive Request where
  /-- To open a context. -/
  | push (parent : Option Nat) (owner : Location)
  /-- To declare a variable. -/
  | declare (context : Nat) (name : String)
  /-- To register a constant for code in a context. -/
  | register (share : Bool) (context : Nat) (value : Number)
deriving DecidableEq

namespace Request

/-- Whether the request is to open a context. -/
def opens : Request → Bool
  | push _ _ => true
  | declare _ _ => false
  | register _ _ _ => false

/-- The name to declare in the context `i`. -/
def declares? (i : Nat) : Request → Option String
  | declare j name => if j = i then some name else none
  | push _ _ => none
  | register _ _ _ => none

/-- The context that the request is about has been opened. -/
def Valid (s : Scopes) : Request → Prop
  | push parent _ => ∀ p, parent = some p → p < s.size
  | declare i _ => i < s.size
  | register _ i _ => i < s.size

end Request

/-- Carries a request out, and replies to it. -/
def Scopes.serve (s : Scopes) : Request → Scopes × Nat
  | .push parent owner => (s.push parent owner, s.size)
  | .declare i name => s.declare i name
  | .register share i value => s.register share i value

/-- An arena and its log. -/
structure History where
  /-- The arena. -/
  scopes : Scopes := ∅
  /-- The requests in order, with the replies. -/
  log : List (Request × Nat) := []

namespace History

/-- The history with one more request. -/
def serve (h : History) (q : Request) : History :=
  ⟨(h.scopes.serve q).1, h.log ++ [(q, (h.scopes.serve q).2)]⟩

/-- Valid requests lead from one history to another. -/
inductive Leads (h : History) : History → Prop where
  | refl : Leads h h
  | serve {h' : History} {q : Request} : Leads h h' → q.Valid h'.scopes → Leads h (h'.serve q)

end History

/-! ## What requests do -/

/-- An empty list at the end is as good as none. -/
theorem getD_concat_nil {α : Type} (l : List (List α)) (i : Nat) :
    (l ++ [[]])[i]?.getD [] = l[i]?.getD [] := by
  rw [List.getElem?_append]
  split
  next => rfl
  next hi =>
    rw [List.getElem?_eq_none (Nat.le_of_not_lt hi)]
    cases i - l.length with
    | zero => rfl
    | succ k => rfl

namespace Scopes

@[simp] theorem size_push (s : Scopes) (parent : Option Nat) (owner : Location) :
    (s.push parent owner).size = s.size + 1 := by
  simp [size, push]

theorem pools_push (s : Scopes) (parent : Option Nat) (owner : Location) :
    (s.push parent owner).pools = s.pools ++ [[]] := by
  simp [pools, push, Context.constantList]

/-- Variables leave the constants alone. -/
theorem pools_declare (s : Scopes) (i : Nat) (name : String) :
    (s.declare i name).1.pools = s.pools := by
  have hf : ∀ c : Context, (c.addVariable name).parent = c.parent := fun _ => rfl
  rw [declare]
  split
  next => rfl
  next =>
    split
    next => rfl
    next => exact (pools_modify hf (fun _ _ => rfl)).trans (List.modify_id _ s.pools)

theorem length_pools (s : Scopes) : s.pools.length = s.size := by
  simp [pools, size]

/-- The way out of an opened context ends at one without a parent. -/
theorem find?_root {s : Scopes} {i : Nat} (h : i < s.size) :
    ∃ c, s.find? (s.root i) = some c ∧ c.parent = none := by
  induction i using Nat.strongRecOn with
  | ind i ih =>
      have hc : s.find? i = some s.contexts[i] := Array.getElem?_eq_getElem h
      rw [root_of_find? hc]
      cases hp : s.contexts[i].parent with
      | none => exact ⟨_, hc, hp⟩
      | some p =>
          have hlt : p < i := s.parent_lt i h p hp
          exact ih p hlt (Nat.lt_trans hlt h)

/-- Only openings make contexts. -/
theorem size_serve (s : Scopes) (q : Request) :
    (s.serve q).1.size = s.size + if q.opens then 1 else 0 := by
  cases q with
  | push parent owner => exact size_push s parent owner
  | declare i name =>
      rw [serve, ← length_pools, pools_declare, length_pools]
      rfl
  | register share i value =>
      rw [serve, ← length_outline, outline_register, length_outline]
      rfl

/-- What a request asks for, what it does to the outline and the pools, and the reply to it. -/
inductive Served (s s' : Scopes) : Request → Nat → Prop where
  | push {parent : Option Nat} {owner : Location} :
      s'.outline = s.outline ++ [⟨parent, owner, []⟩] → s'.pools = s.pools ++ [[]] →
      Served s s' (.push parent owner) s.outline.length
  | declare {i : Nat} {name : String} {o : Outline} :
      s.outline[i]? = some o → s'.outline = s.outline.modify i (·.mapNames (enroll · name)) →
      s'.pools = s.pools → Served s s' (.declare i name) (o.names.idxOf name)
  | register {share : Bool} {i : Nat} {value : Number} {pool : List Number} :
      i < s.outline.length → s.pools[s.root i]? = some pool → s'.outline = s.outline →
      s'.pools = s.pools.modify (s.root i) (Pool.add share · value) →
      Served s s' (.register share i value) (Pool.place share pool value)

theorem served {s : Scopes} {q : Request} (h : q.Valid s) :
    s.Served (s.serve q).1 q (s.serve q).2 := by
  cases q with
  | push parent owner =>
      have hparent : parent.filter (· < s.size) = parent := by
        cases parent with
        | none => rfl
        | some p => exact Option.filter_some_pos (decide_eq_true (h p rfl))
      have ho : (s.push parent owner).outline = s.outline ++ [⟨parent, owner, []⟩] := by
        rw [outline_push, hparent]
      have hr : (s.serve (.push parent owner)).2 = s.outline.length := s.length_outline.symm
      rw [hr]
      exact .push ho (pools_push s parent owner)
  | declare i name =>
      have hi : i < s.outline.length := Nat.lt_of_lt_of_eq h s.length_outline.symm
      have ho : s.outline[i]? = some s.outline[i] := List.getElem?_eq_getElem hi
      obtain ⟨hout, hslot, -⟩ := declare_spec ho name
      have hr : (s.serve (.declare i name)).2 = s.outline[i].names.idxOf name := hslot
      rw [hr]
      exact .declare ho hout (pools_declare s i name)
  | register share i value =>
      have hi : i < s.outline.length := Nat.lt_of_lt_of_eq h s.length_outline.symm
      obtain ⟨c, hc, -⟩ := find?_root h
      have hpool : s.pools[s.root i]? = some c.constantList := by rw [getElem?_pools, hc]; rfl
      obtain ⟨hpools, hplace⟩ := register_pools hpool share value
      have hr : (s.serve (.register share i value)).2 = Pool.place share c.constantList value :=
        hplace
      rw [hr]
      exact .register hi hpool (outline_register s share i value) hpools

/-! ## What stays -/

/-- Every context of `s` is in `s'`, with more names and more constants behind those it has. -/
structure Extends (s s' : Scopes) : Prop where
  outline : ∀ (i : Nat) (o : Outline), s.outline[i]? = some o → ∃ o' : Outline,
    s'.outline[i]? = some o' ∧ o'.parent = o.parent ∧ o'.owner = o.owner ∧ o.names <+: o'.names
  pools : ∀ (i : Nat) (pool : List Number), s.pools[i]? = some pool → ∃ pool' : List Number,
    s'.pools[i]? = some pool' ∧ pool <+: pool'

theorem Extends.refl (s : Scopes) : s.Extends s where
  outline _ o ho := ⟨o, ho, rfl, rfl, List.prefix_rfl⟩
  pools _ pool hp := ⟨pool, hp, List.prefix_rfl⟩

theorem Extends.trans {s s' s'' : Scopes} (h : s.Extends s') (h' : s'.Extends s'') :
    s.Extends s'' where
  outline i o ho := by
    obtain ⟨o', ho', hp, hw, hn⟩ := h.outline i o ho
    obtain ⟨o'', ho'', hp', hw', hn'⟩ := h'.outline i o' ho'
    exact ⟨o'', ho'', hp'.trans hp, hw'.trans hw, hn.trans hn'⟩
  pools i pool hp := by
    obtain ⟨pool', hp', hle⟩ := h.pools i pool hp
    obtain ⟨pool'', hp'', hle'⟩ := h'.pools i pool' hp'
    exact ⟨pool'', hp'', hle.trans hle'⟩

theorem Served.extends {s s' : Scopes} {q : Request} {r : Nat} (h : s.Served s' q r) :
    s.Extends s' := by
  cases h with
  | push hout hpools =>
      constructor
      · intro i o ho
        refine ⟨o, ?_, rfl, rfl, List.prefix_rfl⟩
        rw [hout]
        exact getElem?_of_isPrefix (List.prefix_append _ _) ho
      · intro i pool hp
        refine ⟨pool, ?_, List.prefix_rfl⟩
        rw [hpools]
        exact getElem?_of_isPrefix (List.prefix_append _ _) hp
  | @declare k name _ _ hout hpools =>
      constructor
      · intro i o ho
        rw [hout, List.getElem?_modify, ho]
        by_cases hk : k = i
        · exact ⟨o.mapNames (enroll · name), by simp [hk], rfl, rfl, prefix_enroll o.names name⟩
        · exact ⟨o, by simp [hk], rfl, rfl, List.prefix_rfl⟩
      · intro i pool hp
        exact ⟨pool, hpools ▸ hp, List.prefix_rfl⟩
  | @register share k value _ _ _ hout hpools =>
      constructor
      · intro i o ho
        exact ⟨o, hout ▸ ho, rfl, rfl, List.prefix_rfl⟩
      · intro i pool hp
        rw [hpools, List.getElem?_modify, hp]
        by_cases hk : s.root k = i
        · exact ⟨Pool.add share pool value, by simp [hk], Pool.prefix_add share pool value⟩
        · exact ⟨pool, by simp [hk], List.prefix_rfl⟩

theorem Extends.length_le {s s' : Scopes} (h : s.Extends s') :
    s.outline.length ≤ s'.outline.length := by
  by_contra hlt
  obtain ⟨o', ho', -⟩ := h.outline _ _ (List.getElem?_eq_getElem (Nat.lt_of_not_le hlt))
  rw [List.getElem?_length] at ho'
  cases ho'

/-- The way out of a context stays as it was. -/
theorem Extends.root_eq {s s' : Scopes} (h : s.Extends s') {i : Nat} (hi : i < s.outline.length) :
    s'.root i = s.root i := by
  induction i using Nat.strongRecOn with
  | ind i ih =>
      obtain ⟨o', ho', hp, -⟩ := h.outline i _ (List.getElem?_eq_getElem hi)
      obtain ⟨c, hc, hco⟩ := find?_of_outline (List.getElem?_eq_getElem hi)
      obtain ⟨c', hc', rfl⟩ := find?_of_outline ho'
      have hparent : c'.parent = c.parent := hp.trans (congrArg Outline.parent hco.symm)
      rw [root_of_find? hc, root_of_find? hc', hparent]
      cases hpc : c.parent with
      | none => rfl
      | some p =>
          obtain ⟨hlt, rfl⟩ := Array.getElem?_eq_some_iff.1 hc
          have hp_lt : p < i := s.parent_lt i hlt p hpc
          exact ih p hp_lt (Nat.lt_trans hp_lt hi)

/-! ## Contexts -/

/-- The openings in a log made the contexts, in their order. -/
def Opened (s : Scopes) (log : List (Request × Nat)) : Prop :=
  log.filter (·.1.opens) = s.outline.zipIdx.map fun (o, i) => (.push o.parent o.owner, i)

theorem openings_modify (l : List Outline) (i : Nat) (f : List String → List String) :
    ((l.modify i (·.mapNames f)).zipIdx.map fun (o, i) => (Request.push o.parent o.owner, i)) =
      l.zipIdx.map fun (o, i) => (Request.push o.parent o.owner, i) := by
  apply List.ext_getElem?
  intro j
  simp only [List.getElem?_map, List.getElem?_zipIdx, List.getElem?_modify]
  cases l[j]? with
  | none => rfl
  | some o =>
      by_cases hj : i = j
      · simp [hj, Outline.mapNames]
      · simp [hj]

theorem Opened.serve {s s' : Scopes} {q : Request} {r : Nat} {log : List (Request × Nat)}
    (h : s.Opened log) (hs : s.Served s' q r) : s'.Opened (log ++ [(q, r)]) := by
  rw [Opened, List.filter_append, h]
  cases hs with
  | push hout _ =>
      rw [hout, List.zipIdx_append, List.map_append]
      simp [Request.opens]
  | @declare i name o ho hout _ =>
      rw [hout, openings_modify]
      simp [Request.opens]
  | register _ _ hout _ =>
      rw [hout]
      simp [Request.opens]

/-! ## Variables -/

/-- The names of the context `i`; none if it is not there. -/
def namesAt (s : Scopes) (i : Nat) : List String := (s.outline.map Outline.names)[i]?.getD []

@[simp] theorem namesAt_empty (i : Nat) : (∅ : Scopes).namesAt i = [] := rfl

theorem namesAt_eq (s : Scopes) (i : Nat) : s.namesAt i = (s.find? i).elim [] Context.nameList := by
  rw [namesAt, List.getElem?_map, getElem?_outline]
  cases s.find? i with
  | none => rfl
  | some c => rfl

/-- A request declares at most one name in a context. -/
theorem Served.namesAt_eq {s s' : Scopes} {q : Request} {r : Nat} (h : s.Served s' q r) (i : Nat) :
    s'.namesAt i = (q.declares? i).elim (s.namesAt i) (enroll (s.namesAt i)) := by
  cases h with
  | push hout _ =>
      rw [namesAt, hout, List.map_append]
      exact getD_concat_nil _ i
  | @declare k name o ho hout _ =>
      rw [namesAt, namesAt, hout, List.getElem?_map, List.getElem?_map, Request.declares?]
      by_cases hk : k = i
      · subst hk
        rw [List.getElem?_modify_eq, if_pos rfl, ho]
        rfl
      · rw [List.getElem?_modify_ne _ _ hk, if_neg hk]
        rfl
  | register _ _ hout _ =>
      rw [namesAt, hout]
      rfl

/-- The declarations in a log made the variables. -/
structure Declared (s : Scopes) (log : List (Request × Nat)) : Prop where
  names : ∀ i, s.namesAt i = (log.filterMap (·.1.declares? i)).eraseDups
  slots : ∀ i name slot, (.declare i name, slot) ∈ log ↔
    name ∈ s.namesAt i ∧ (s.namesAt i).idxOf name = slot

theorem Declared.serve {s s' : Scopes} {q : Request} {r : Nat} {log : List (Request × Nat)}
    (h : s.Declared log) (hs : s.Served s' q r) : s'.Declared (log ++ [(q, r)]) := by
  constructor
  · intro i
    rw [hs.namesAt_eq, h.names, List.filterMap_append]
    cases hq : q.declares? i with
    | none => simp [hq]
    | some name => simp [hq, eraseDups_concat]
  · intro i name slot
    rw [List.mem_append, h.slots, hs.namesAt_eq, List.mem_singleton]
    cases hs with
    | push _ _ => simp [Request.declares?]
    | register _ _ _ _ => simp [Request.declares?]
    | @declare k n o ho _ _ =>
        have hnames : s.namesAt k = o.names := by rw [namesAt, List.getElem?_map, ho]; rfl
        by_cases hk : k = i
        · subst hk
          simp only [Request.declares?, if_true, Option.elim_some, hnames, mem_enroll,
            Prod.mk.injEq, Request.declare.injEq, true_and]
          constructor
          · rintro (⟨hm, rfl⟩ | ⟨rfl, rfl⟩)
            · exact ⟨.inl hm, ((prefix_enroll _ _).idxOf_eq_of_mem hm).symm⟩
            · exact ⟨.inr rfl, idxOf_enroll _ _⟩
          · rintro ⟨hm | rfl, rfl⟩
            · rw [← (prefix_enroll _ _).idxOf_eq_of_mem hm]
              exact .inl ⟨hm, rfl⟩
            · exact .inr ⟨rfl, idxOf_enroll _ _⟩
        · simp [Request.declares?, hk, Ne.symm hk]

/-! ## Constants -/

/-- The pool of the context `i`; empty if it is not there. -/
def poolAt (s : Scopes) (i : Nat) : List Number := s.pools[i]?.getD []

@[simp] theorem poolAt_empty (i : Nat) : (∅ : Scopes).poolAt i = [] := rfl

theorem poolAt_eq (s : Scopes) (i : Nat) :
    s.poolAt i = (s.find? i).elim [] Context.constantList := by
  rw [poolAt, getElem?_pools]
  cases s.find? i with
  | none => rfl
  | some c => rfl

/-- A request adds at most one entry to a pool: a constant, to that of the outermost context around
its code. -/
theorem Served.getElem?_poolAt {s s' : Scopes} {q : Request} {r : Nat} (h : s.Served s' q r)
    (i place : Nat) (value : Number) :
    (s'.poolAt i)[place]? = some value ↔
      (s.poolAt i)[place]? = some value ∨
        ∃ share k, (.register share k value, place) = (q, r) ∧ s.root k = i := by
  cases h with
  | push _ hpools =>
      have hpool : s'.poolAt i = s.poolAt i := by
        rw [poolAt, hpools]
        exact getD_concat_nil _ i
      simp [hpool]
  | declare _ _ hpools => simp [poolAt, hpools]
  | @register share k added pool _ hpool _ hpools =>
      by_cases hi : s.root k = i
      · subst hi
        have hold : s.poolAt (s.root k) = pool := by rw [poolAt, hpool]; rfl
        have hnew : s'.poolAt (s.root k) = Pool.add share pool added := by
          rw [poolAt, hpools, List.getElem?_modify_eq, hpool]
          rfl
        rw [hold, hnew, Pool.getElem?_add_iff]
        constructor
        · rintro (h | ⟨rfl, rfl⟩)
          · exact .inl h
          · exact .inr ⟨share, k, rfl, rfl⟩
        · rintro (h | ⟨_, _, hq, -⟩)
          · exact .inl h
          · cases hq
            exact .inr ⟨rfl, rfl⟩
      · have hsame : s'.poolAt i = s.poolAt i := by
          rw [poolAt, hpools, List.getElem?_modify_ne _ _ hi]
          rfl
        rw [hsame]
        constructor
        · exact .inl
        · rintro (h | ⟨_, _, hq, hk⟩)
          · exact h
          · cases hq
            exact absurd hk hi

/-- A constant is registered for code in a context that is there. -/
theorem Served.lt_length {s s' : Scopes} {share : Bool} {k : Nat} {value : Number} {r : Nat}
    (h : s.Served s' (.register share k value) r) : k < s.outline.length := by
  cases h with
  | register hk _ _ _ => exact hk

/-- The registrations in a log made the pools. -/
structure Registered (s : Scopes) (log : List (Request × Nat)) : Prop where
  below : ∀ share k value place, (.register share k value, place) ∈ log → k < s.outline.length
  entries : ∀ i place value, (s.poolAt i)[place]? = some value ↔
    ∃ share k, (.register share k value, place) ∈ log ∧ s.root k = i

theorem Registered.serve {s s' : Scopes} {q : Request} {r : Nat} {log : List (Request × Nat)}
    (h : s.Registered log) (hs : s.Served s' q r) : s'.Registered (log ++ [(q, r)]) := by
  -- every registration, also the new one, is for a context that was there before
  have hbelow : ∀ share k value place, (.register share k value, place) ∈ log ++ [(q, r)] →
      k < s.outline.length := by
    intro share k value place hm
    rw [List.mem_append, List.mem_singleton] at hm
    obtain hm | hm := hm
    · exact h.below share k value place hm
    · cases hm
      exact hs.lt_length
  constructor
  · intro share k value place hm
    exact Nat.lt_of_lt_of_le (hbelow share k value place hm) hs.extends.length_le
  · intro i place value
    rw [hs.getElem?_poolAt, h.entries]
    constructor
    · rintro (⟨share, k, hm, hk⟩ | ⟨share, k, hq, hk⟩)
      · have hm' := List.mem_append_left [(q, r)] hm
        exact ⟨share, k, hm', (hs.extends.root_eq (hbelow _ _ _ _ hm')).trans hk⟩
      · have hm' := List.mem_append_right log (List.mem_singleton.2 hq)
        exact ⟨share, k, hm', (hs.extends.root_eq (hbelow _ _ _ _ hm')).trans hk⟩
    · rintro ⟨share, k, hm, hk⟩
      rw [hs.extends.root_eq (hbelow share k value place hm)] at hk
      rw [List.mem_append, List.mem_singleton] at hm
      obtain hm | hm := hm
      · exact .inl ⟨share, k, hm, hk⟩
      · exact .inr ⟨share, k, hm, hk⟩

/-- A pool with entries belongs to a context without a parent. -/
theorem Registered.parent_eq_none {s : Scopes} {log : List (Request × Nat)}
    (h : s.Registered log) {i : Nat} {c : Context} (hc : s.find? i = some c)
    (hne : c.constantList ≠ []) : c.parent = none := by
  obtain ⟨value, rest, hcons⟩ := List.exists_cons_of_ne_nil hne
  have hentry : (s.poolAt i)[0]? = some value := by
    rw [poolAt_eq, hc, Option.elim_some, hcons]
    rfl
  obtain ⟨share, k, hm, rfl⟩ := (h.entries i 0 value).1 hentry
  have hk : k < s.size := Nat.lt_of_lt_of_eq (h.below share k value 0 hm) s.length_outline
  obtain ⟨c', hc', hp⟩ := find?_root hk
  cases hc.symm.trans hc'
  exact hp

end Scopes

/-! ## All histories -/

namespace History

theorem Leads.scopes_extend {h h' : History} (hl : h.Leads h') : h.scopes.Extends h'.scopes := by
  induction hl with
  | refl => exact .refl _
  | serve _ hq ih => exact ih.trans (Scopes.served hq).extends

theorem Leads.opened {h : History} (hl : Leads {} h) : h.scopes.Opened h.log := by
  induction hl with
  | refl => rfl
  | serve _ hq ih => exact ih.serve (Scopes.served hq)

theorem Leads.declared {h : History} (hl : Leads {} h) : h.scopes.Declared h.log := by
  induction hl with
  | refl => exact ⟨fun _ => rfl, fun _ _ _ => by simp⟩
  | serve _ hq ih => exact ih.serve (Scopes.served hq)

theorem Leads.registered {h : History} (hl : Leads {} h) : h.scopes.Registered h.log := by
  induction hl with
  | refl => exact ⟨fun _ _ _ _ hm => absurd hm List.not_mem_nil, fun _ _ _ => by simp⟩
  | serve _ hq ih => exact ih.serve (Scopes.served hq)

/-- The log and the arena of a history say the same. -/
structure Consistent (h : History) : Prop where
  /-- The `i`-th opening got the reply `i`, and the context `i` is as it asked. -/
  contexts : ∀ i : Nat, (h.log.filter (·.1.opens))[i]? =
    (h.scopes.find? i).map fun c => (.push c.parent c.owner, i)
  /-- A context is global if it has no parent.  The first has none, and a parent comes earlier. -/
  parents : ∀ i c, h.scopes.find? i = some c →
    (c.isGlobal = true ↔ c.parent = none) ∧ (i = 0 → c.parent = none) ∧
      ∀ p, c.parent = some p → p < i
  /-- The variables are the names declared, in the order of their first declarations. -/
  names : ∀ i c, h.scopes.find? i = some c →
    c.slots = (h.log.filterMap (·.1.declares? i)).eraseDups.zipIdx
  /-- The variables have the slots in use, each its own. -/
  slots : ∀ i c, h.scopes.find? i = some c →
    (∀ name slot, (name, slot) ∈ c.slots ↔ c.slotOf? name = some slot) ∧
      (∀ name slot, c.slotOf? name = some slot → slot < c.slotCount) ∧
      ∀ slot, slot < c.slotCount → ∃! name, c.slotOf? name = some slot
  /-- The slot of a variable is the reply to each of its declarations. -/
  declared : ∀ i name slot, (.declare i name, slot) ∈ h.log ↔
    ∃ c, h.scopes.find? i = some c ∧ c.slotOf? name = some slot
  /-- The entries of a pool are the constants registered below its context, where replied. -/
  registered : ∀ (i place : Nat) (value : Number),
    (∃ share k, (.register share k value, place) ∈ h.log ∧ h.scopes.root k = i) ↔
      ∃ c, h.scopes.find? i = some c ∧ c.constants.entries[place]? = some value
  /-- A context with a parent has no constants. -/
  inner : ∀ i c, h.scopes.find? i = some c → c.parent ≠ none → c.constants.entries = #[]

/-- Variables without repetitions have the slots in use, each its own. -/
theorem existsUnique_slotOf? {c : Context} (h : c.nameList.Nodup) {slot : Nat}
    (hs : slot < c.slotCount) : ∃! name, c.slotOf? name = some slot := by
  rw [Context.slotCount_eq] at hs
  have hn : c.nameList[slot]? = some c.nameList[slot] := List.getElem?_eq_getElem hs
  refine ⟨c.nameList[slot], (Context.slotOf?_eq_some_iff h).2 hn, ?_⟩
  intro name hname
  exact Option.some.inj (((Context.slotOf?_eq_some_iff h).1 hname).symm.trans hn)

theorem Leads.nodup_nameList {h : History} (hl : Leads {} h) {i : Nat} {c : Context}
    (hc : h.scopes.find? i = some c) : c.nameList.Nodup := by
  have hnames : c.nameList = h.scopes.namesAt i := by
    rw [Scopes.namesAt_eq, hc]
    rfl
  rw [hnames, hl.declared.names]
  exact nodup_eraseDups _

theorem Leads.consistent {h : History} (hl : Leads {} h) : h.Consistent where
  contexts i := by
    rw [hl.opened, List.getElem?_map, List.getElem?_zipIdx, Scopes.getElem?_outline,
      Option.map_map, Option.map_map]
    simp only [Nat.zero_add]
    rfl
  parents i c hc := by
    obtain ⟨hi, rfl⟩ := Array.getElem?_eq_some_iff.1 hc
    have hlt := h.scopes.parent_lt i hi
    refine ⟨Option.isNone_iff_eq_none, ?_, hlt⟩
    rintro rfl
    by_contra hne
    obtain ⟨p, hp⟩ := Option.ne_none_iff_exists'.1 hne
    exact Nat.not_lt_zero p (hlt p hp)
  names i c hc := by
    rw [← hl.declared.names, Scopes.namesAt_eq, hc]
    rfl
  slots i c hc := by
    have hn := hl.nodup_nameList hc
    refine ⟨?_, ?_, fun _ => existsUnique_slotOf? hn⟩
    · intro name slot
      rw [Context.mem_slots, Context.slotOf?_eq_some_iff hn]
    · intro name slot hs
      rw [Context.slotCount_eq]
      exact (List.getElem?_eq_some_iff.1 ((Context.slotOf?_eq_some_iff hn).1 hs)).1
  declared i name slot := by
    rw [hl.declared.slots, Scopes.namesAt_eq]
    cases h.scopes.find? i with
    | none => simp
    | some c => simp [Context.slotOf?_eq_some]
  registered i place value := by
    rw [← hl.registered.entries, Scopes.poolAt_eq]
    cases h.scopes.find? i with
    | none => simp
    | some c => simp [Context.constantList]
  inner i c hc hp := by
    by_contra hne
    refine hp (hl.registered.parent_eq_none hc ?_)
    simpa [Context.constantList] using hne

/--
Whatever is requested of an arena, its log and its contexts say the same.  Whatever is requested
later, a context keeps its parent and its owner, its constants stay at their places, and a variable
keeps its slot, which is the reply to every later declaration of it.
-/
theorem consistent_and_lasting {h h' : History} (hl : Leads {} h) (hl' : h.Leads h') :
    h.Consistent ∧
      ∀ i c, h.scopes.find? i = some c → ∃ c', h'.scopes.find? i = some c' ∧
        c'.parent = c.parent ∧ c'.owner = c.owner ∧
        c.constants.entries.toList <+: c'.constants.entries.toList ∧
        ∀ name slot, c.slotOf? name = some slot →
          c'.slotOf? name = some slot ∧ (h'.scopes.declare i name).2 = slot := by
  refine ⟨hl.consistent, ?_⟩
  intro i c hc
  have hext := hl'.scopes_extend
  obtain ⟨o', ho', hparent, howner, hnames⟩ :=
    hext.outline i c.outline (by rw [Scopes.getElem?_outline, hc]; rfl)
  obtain ⟨c', hc', rfl⟩ := Scopes.find?_of_outline ho'
  obtain ⟨pool', hpool', hpool⟩ :=
    hext.pools i c.constantList (by rw [Scopes.getElem?_pools, hc]; rfl)
  rw [Scopes.getElem?_pools, hc'] at hpool'
  cases hpool'
  refine ⟨c', hc', hparent, howner, hpool, ?_⟩
  intro name slot hs
  obtain ⟨hm, rfl⟩ := Context.slotOf?_eq_some.1 hs
  have hplace : c'.nameList.idxOf name = c.nameList.idxOf name :=
    (hnames.idxOf_eq_of_mem hm).symm
  refine ⟨Context.slotOf?_eq_some.2 ⟨hnames.subset hm, hplace⟩, ?_⟩
  obtain ⟨-, hslot, -⟩ := Scopes.declare_spec ho' name
  exact hslot.trans hplace

/-- Two contexts without parents, a name in two contexts, and constants shared and not. -/
theorem consistent_and_lasting_two_roots :
    let start : Location := ⟨"main", 1, 1⟩
    let big : Number := .integer 4294967296
    let h : History := [Request.push none start, .push (some 0) start, .push none start,
      .declare 0 "z", .declare 1 "z", .declare 0 "a", .declare 0 "z", .register true 1 big,
      .register false 0 big, .register true 2 big].foldl History.serve {}
    let h' := h.serve (.declare 0 "b")
    Leads {} h ∧ h.Leads h' ∧ h.Consistent ∧
      ∃ c c', h.scopes.find? 0 = some c ∧ c.parent = none ∧ c.slots = [("z", 0), ("a", 1)] ∧
        h'.scopes.find? 0 = some c' ∧ c'.slotOf? "a" = some 1 := by
  intro start big h h'
  have hl : Leads {} h := by
    refine .serve (.serve (.serve (.serve (.serve (.serve (.serve (.serve (.serve (.serve
      .refl ?_) ?_) ?_) ?_) ?_) ?_) ?_) ?_) ?_) ?_
    all_goals simp [Request.Valid, History.serve, Scopes.size_serve, Request.opens]
  have hl' : h.Leads h' := .serve .refl (by
    simp [h, Request.Valid, History.serve, Scopes.size_serve, Request.opens])
  obtain ⟨hc, hlast⟩ := consistent_and_lasting hl hl'
  have hopening : (h.log.filter (·.1.opens))[0]? = some (.push none start, 0) := rfl
  obtain ⟨c, hfind, -⟩ := Option.map_eq_some_iff.1 ((hc.contexts 0).symm.trans hopening)
  have hnames : c.slots = [("z", 0), ("a", 1)] := hc.names 0 c hfind
  have hslot : c.slotOf? "a" = some 1 := ((hc.slots 0 c hfind).1 "a" 1).1 (by simp [hnames])
  obtain ⟨c', hfind', -, -, -, hslots⟩ := hlast 0 c hfind
  exact ⟨hl, hl', hc, c, c', hfind, (hc.parents 0 c hfind).2.1 rfl, hnames, hfind',
    (hslots "a" 1 hslot).1⟩

end History

end BlockScript
