import BlockScript.Proofs.Correctness

/-!
# Programs without a first self-reference run

A variable is declared before its initial value is looked at, so an initial value that uses its own
variable finds a hole there, unless the block has declared the variable before.  This is the only
way in which a program can come upon a hole.  A program is *grounded* if none of its declarations
does so (`Program.grounded`), and `Engine.executeTree_progress` says that a grounded program runs to
its end and leaves a number in each of its global variables.

The reason is an invariant of the interpreter: between two statements, every variable of every open
block has a number (`AllNumbers`).  A declaration breaks it for its own variable only, and only
while its initial value is evaluated.
-/

namespace BlockScript

/-! ## Grounded programs -/

namespace Tree

mutual

/-- The names of the identifiers in a tree. -/
def uses : Tree → List String
  | block _ body => usesAll body
  | declaration _ _ _ init => init.uses
  | operation _ _ left right => left.uses ++ right.uses
  | identifier _ name _ => [name]
  | literal .. => []

/-- The names of the identifiers in statements. -/
def usesAll : List Tree → List String
  | [] => []
  | t :: ts => t.uses ++ usesAll ts

end

/-- The name that a statement declares in the block around it. -/
def declared? : Tree → Option String
  | declaration _ name _ _ => some name
  | _ => none

mutual

/-- Whether a statement uses no variable in its own initial value, other than one of those that the
block around it has `declared` before; and so for the statements of blocks in it. -/
def grounded (declared : List String) : Tree → Bool
  | block _ body => groundedAll [] body
  | declaration _ name _ init => name ∉ init.uses || name ∈ declared
  | operation .. | identifier .. | literal .. => true

/-- Whether all statements are so, in order. -/
def groundedAll (declared : List String) : List Tree → Bool
  | [] => true
  | t :: ts => t.grounded declared && groundedAll (declared ++ t.declared?.toList) ts

end

end Tree

/-- Whether no declaration of a program uses its variable in the initial value, unless the variable
was declared before in the same block. -/
def Program.grounded (p : Program) : Bool := Tree.groundedAll [] p.body

/-! ## Maps of numbers -/

/-- The value is an integer or a double. -/
def Value.IsNumber (v : Value) : Prop := ∃ n, v = .number n

/-- Every variable of the open blocks has a number. -/
def AllNumbers (env : List Bindings) : Prop := ∀ b ∈ env, ∀ x ∈ b, x.2.IsNumber

namespace AllNumbers

theorem enter {env : List Bindings} (h : AllNumbers env) : AllNumbers ([] :: env) := by
  intro b hb x hx
  rcases List.mem_cons.1 hb with rfl | hb
  · cases hx
  · exact h b hb x hx

theorem write {b : Bindings} {outer : List Bindings} (h : AllNumbers (b :: outer)) (name : String)
    (n : Number) : AllNumbers (b.write name (.number n) :: outer) := by
  intro b' hb' x hx
  rcases List.mem_cons.1 hb' with rfl | hb'
  · rcases Bindings.mem_write hx with hx | rfl
    · exact h b (List.mem_cons_self ..) x hx
    · exact ⟨n, rfl⟩
  · exact h b' (List.mem_cons_of_mem b hb') x hx

theorem valueOf? {env : List Bindings} (h : AllNumbers env) {name : String} {v : Value}
    (hv : BlockScript.valueOf? env name = some v) : v.IsNumber := by
  obtain ⟨b, hb, hx⟩ := mem_of_valueOf? hv
  exact h b hb _ hx

end AllNumbers

/-! ## Expressions -/

/-- A name that code can find has a value. -/
theorem exists_valueOf?_of_locate {name : String} {found : Nat × Reach} :
    ∀ {env : List Bindings} {depth : Nat}, locate depth name (namesOf env) = some found →
      ∃ v, valueOf? env name = some v
  | [], depth, h => by cases h
  | b :: env, depth, h => by
      by_cases hn : name ∈ b.names
      · obtain ⟨v, hv⟩ := Bindings.exists_get? hn
        exact ⟨v, valueOf?_cons_of_mem hv⟩
      · rw [namesOf, List.map_cons, locate, if_neg hn] at h
        rw [valueOf?_cons_of_not_mem hn]
        exact exists_valueOf?_of_locate h

/-- An expression with code has a number for its value, if the identifiers in it have. -/
theorem LowersExpression.evaluate_number {share : Bool} {Γ : List (List String)}
    {pool pool' : List Number} {t : Tree} {code : List Instruction}
    (h : LowersExpression share Γ pool t code pool') {env : List Bindings} (hΓ : namesOf env = Γ)
    (hn : ∀ name ∈ t.uses, ∀ v, valueOf? env name = some v → v.IsNumber) :
    ∃ n, t.evaluate env = .ok (.number n) := by
  induction h with
  | inline _ => exact ⟨_, rfl⟩
  | constant _ => exact ⟨_, rfl⟩
  | @identifier _ _ name _ _ _ hl =>
      subst hΓ
      obtain ⟨v, hv⟩ := exists_valueOf?_of_locate hl
      obtain ⟨n, rfl⟩ := hn name (List.mem_singleton_self name) v hv
      exact ⟨n, by rw [Tree.evaluate, hv]; rfl⟩
  | operation _ _ ihl ihr =>
      obtain ⟨x, hx⟩ := ihl fun name hm => hn name (List.mem_append_left _ hm)
      obtain ⟨y, hy⟩ := ihr fun name hm => hn name (List.mem_append_right _ hm)
      exact ⟨_, by rw [Tree.evaluate, hx, hy]; rfl⟩

/-! ## Statements -/

/-- While an initial value is evaluated, every name that a grounded declaration lets it use has a
number: only the variable itself may be a hole. -/
theorem AllNumbers.declare {b : Bindings} {outer : List Bindings} (h : AllNumbers (b :: outer))
    {name x : String} (hx : x = name → name ∈ b.names) {v : Value}
    (hv : BlockScript.valueOf? (b.declare name :: outer) x = some v) : v.IsNumber := by
  rw [Bindings.declare] at hv
  by_cases hn : name ∈ b.names
  · rw [if_pos hn] at hv
    exact h.valueOf? hv
  · have hne : x ≠ name := fun he => hn (hx he)
    rw [if_neg hn, valueOf?_write_ne hne] at hv
    exact h.valueOf? hv

/-- Grounded statements with code run to their end, and every variable has a number afterwards. -/
theorem Lowers.interpretAll_numbers {share : Bool} {ns : List String} {Γ : List (List String)}
    {pool pool' : List Number} {ts : List Tree} {code : List Instruction}
    (h : Lowers share ns Γ pool ts code pool') :
    ∀ {b : Bindings} {outer : List Bindings} {declared : List String}, b.names = ns →
      namesOf outer = Γ → declared ⊆ ns → Tree.groundedAll declared ts → AllNumbers (b :: outer) →
      ∃ b', Tree.interpretAll (b :: outer) ts = ⟨b' :: outer, none⟩ ∧ AllNumbers (b' :: outer) := by
  induction h with
  | nil =>
      intro b outer declared _ _ _ _ hnum
      exact ⟨b, rfl, hnum⟩
  | @declaration ns Γ _ _ _ site name slot init ts _ _ hinit _ ih =>
      intro b outer declared hb hΓ hd hg hnum
      subst hb hΓ
      rw [Tree.groundedAll, Bool.and_eq_true] at hg
      obtain ⟨hself, hrest⟩ := hg
      have hnames : namesOf (b.declare name :: outer) = enroll b.names name :: namesOf outer := by
        rw [namesOf, List.map_cons, Bindings.names_declare]
        rfl
      -- An identifier of the declared name can only mean a variable that has its number already.
      have hown : name ∈ init.uses → name ∈ b.names := by
        intro hu
        simp only [Tree.grounded, Bool.or_eq_true, decide_eq_true_eq] at hself
        rcases hself with hself | hself
        · exact absurd hu hself
        · exact hd hself
      obtain ⟨n, hn⟩ := hinit.evaluate_number hnames fun x hx v hv =>
        hnum.declare (fun he => hown (he ▸ hx)) hv
      have hint : (Tree.declaration site name slot init).interpret (b :: outer) =
          ⟨b.write name (.number n) :: outer, none⟩ := by
        rw [← Bindings.write_declare, Tree.interpret, hn]
      rw [Tree.interpretAll_cons_ok hint]
      refine ih (Bindings.names_write name _ b) rfl ?_ hrest (hnum.write name n)
      intro x hx
      rcases List.mem_append.1 hx with hx | hx
      · exact mem_enroll.2 (Or.inl (hd hx))
      · exact mem_enroll.2 (Or.inr (List.mem_singleton.1 hx))
  | @block ns Γ _ _ _ site body ts _ _ _ _ ihb ih =>
      intro b outer declared hb hΓ hd hg hnum
      subst hb hΓ
      rw [Tree.groundedAll, Bool.and_eq_true, Tree.grounded] at hg
      obtain ⟨hbody, hrest⟩ := hg
      obtain ⟨b₁, hint, -⟩ : ∃ b₁, Tree.interpretAll ([] :: b :: outer) body =
          ⟨b₁ :: b :: outer, none⟩ ∧ AllNumbers (b₁ :: b :: outer) :=
        ihb rfl rfl (List.nil_subset _) hbody hnum.enter
      rw [Tree.interpretAll_cons_ok (Tree.interpret_block_ok hint)]
      exact ih rfl rfl (by simpa [Tree.declared?] using hd) hrest hnum

/-! ## Programs -/

/-- A grounded program that compiles runs to its end, if the machine has what it demands, and its
global variables are integers and doubles then. -/
theorem Engine.executeTree_progress (e : Engine) {p : Program} {c : Compilation}
    (hc : p.compile e.settings = .ok c) (hfit : c.Fits p e.settings.maxStackSize)
    (hg : p.grounded) :
    (e.executeTree p).result.result = .ok () ∧
      ∀ x ∈ (e.executeTree p).result.engine.globals, x.2.IsNumber := by
  have hnil : AllNumbers [[]] := by
    intro b hb x hx
    rw [List.mem_singleton.1 hb] at hx
    cases hx
  obtain ⟨b, hint, hnum⟩ : ∃ b, p.interpret = ⟨[b], none⟩ ∧ AllNumbers [b] :=
    (Program.lowers_of_compile hc).1.interpretAll_numbers rfl rfl (List.nil_subset _) hg hnil
  obtain ⟨hok, hglobals⟩ := globals_of_fits hc hfit (by rw [hint])
  refine ⟨hok, ?_⟩
  rw [hglobals, hint]
  exact hnum b (List.mem_singleton_self b)

/-- The program `var a = 0.5; { var b = a; var a = b; var a = a * b; } var a = a + 1;`. -/
def Program.redeclaring : Program where
  site := .nowhere
  body := [
    .declaration .nowhere "a" none (.literal .nowhere (.float ⟨0x3FE0000000000000⟩) none),
    .block .nowhere [
      .declaration .nowhere "b" none (.identifier .nowhere "a" none),
      .declaration .nowhere "a" none (.identifier .nowhere "b" none),
      .declaration .nowhere "a" none (.operation .nowhere (.arithmetic .mul)
        (.identifier .nowhere "a" none) (.identifier .nowhere "b" none))],
    .declaration .nowhere "a" none (.operation .nowhere (.arithmetic .add)
      (.identifier .nowhere "a" none) (.literal .nowhere (.integer 1) none))]

theorem Engine.executeTree_progress_redeclaring :
    Program.redeclaring.grounded ∧
    (∃ c, Program.redeclaring.compile {} = .ok c ∧
      c.Fits Program.redeclaring ({} : Settings).maxStackSize) ∧
    (executeTree {} .redeclaring).result.result = .ok () ∧
    ∀ x ∈ (executeTree {} .redeclaring).result.engine.globals, x.2.IsNumber := by
  have hlow : ∃ code, Lowers false [] [] [] Program.redeclaring.body code
      [.float ⟨0x3FE0000000000000⟩] :=
    ⟨_, .declaration (.constant rfl)
      (.block
        (.declaration (.identifier rfl)
          (.declaration (.identifier rfl)
            (.declaration (.operation (.identifier rfl) (.identifier rfl)) .nil)))
        (.declaration (.operation (.identifier rfl) (.inline rfl)) .nil))⟩
  obtain ⟨code, hlow⟩ := hlow
  obtain ⟨c, hc, hfit⟩ : ∃ c, Program.redeclaring.compile {} = .ok c ∧
      c.Fits Program.redeclaring ({} : Settings).maxStackSize :=
    Program.exists_fits hlow ⟨by decide, by decide, by decide⟩ (by decide)
  have hg : Program.redeclaring.grounded := by decide
  exact ⟨hg, ⟨c, hc, hfit⟩, executeTree_progress {} hc hfit hg⟩

end BlockScript
