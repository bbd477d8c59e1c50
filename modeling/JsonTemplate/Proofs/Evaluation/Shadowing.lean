import JsonTemplate.Proofs.Evaluation.Alike

/-!
# Bindings as a finite map

Binding a name again puts the new binding before the old one, which stays where it is. No template
can tell: all that is ever asked of the bindings is the newest value of a name, so bindings that
give each name the same value go through every reading of every tree alike. In particular an
evaluation that drops a binding as soon as it is hidden, and so keeps a finite map from names to
values, has the same results, the same errors and the same output.
-/

namespace JsonTemplate

/-- Computations that no one can tell apart: from states in a relation both have the same result or
the same error and leave states in the relation, or both have no end. -/
def Run.Indistinguishable {σ τ α : Type} (R : σ → τ → Prop) (run : Run σ α) (other : Run τ α) :
    Prop :=
  ∀ s t, R s t →
    Option.Rel (fun outcome other => outcome.1 = other.1 ∧ R outcome.2 other.2) (run s) (other t)

/-- Computations that are alike without any exception can not be told apart. -/
theorem Run.Alike.indistinguishable {σ τ α : Type} {R : σ → τ → Prop} {E : EvalError → Prop}
    {P : α → Prop} {run : Run σ α} {other : Run τ α}
    (h : run.Alike R (fun _ => False) E P other) : run.Indistinguishable R other := by
  intro s t hst
  have hends := h s t hst
  generalize run s = outcome, other t = outcome' at hends ⊢
  cases hends with
  | unfinished => exact .none
  | ended _ hstate => exact .some ⟨rfl, hstate⟩
  | diverted herror => exact herror.elim

namespace Environment

/-- Bindings that give each name the same value, or both none. -/
def Agrees (environment other : Environment) : Prop :=
  ∀ name, environment.lookup? name = other.lookup? name

/-- A name that has just been bound is found, and every other one as before. -/
theorem lookup?_define (environment : Environment) (name : String) (value : Value)
    (sought : String) : (environment.define name value).lookup? sought =
      if sought = name then some value else environment.lookup? sought := by
  change List.lookup sought ((name, value) :: environment.bindings) = _
  rw [List.lookup_cons]
  by_cases hsought : sought = name
  · rw [hsought, beq_self_eq_true, if_pos rfl]
  · rw [beq_eq_false_iff_ne.mpr hsought, if_neg hsought]
    rfl

/-- Bindings that agree still do when a name is bound in both. -/
theorem Agrees.define {environment other : Environment} (h : environment.Agrees other)
    (name : String) (value : Value) :
    (environment.define name value).Agrees (other.define name value) := by
  intro sought
  rw [lookup?_define, lookup?_define, h sought]

/-- Bindings that agree simulate each other. -/
theorem simulation_agrees : Simulation Agrees (fun _ => True) (fun _ => True) where
  empty _ := rfl
  lookup? h := h
  operation _ _ := trivial
  proceed := trivial
  return_ _ := trivial

/-- Bindings with one value for each name. -/
def IsMap (environment : Environment) : Prop := (environment.bindings.map (·.1)).Nodup

/-- Drops the bindings that the newest one hides. -/
def dropHidden : Environment → Environment
  | ⟨[]⟩ => ⟨[]⟩
  | ⟨(name, value) :: older⟩ => ⟨(name, value) :: older.filter (·.1 ≠ name)⟩

/-- Binding a name and dropping what this hides overwrites the value of the name in a map. -/
theorem IsMap.dropHidden_define {environment : Environment} (h : environment.IsMap) (name : String)
    (value : Value) : (environment.define name value).dropHidden.IsMap := by
  change (name :: (environment.bindings.filter (·.1 ≠ name)).map (·.1)).Nodup
  refine List.nodup_cons.mpr ⟨?_, h.sublist (List.filter_sublist.map _)⟩
  simp

/-- Leaving out one name leaves all others as they are found. -/
theorem lookup_filter_ne (bindings : List (String × Value)) {name sought : String}
    (h : sought ≠ name) :
    (bindings.filter (·.1 ≠ name)).lookup sought = bindings.lookup sought := by
  induction bindings with
  | nil => rfl
  | cons binding rest ih =>
    obtain ⟨other, value⟩ := binding
    by_cases hother : other = name
    · rw [List.filter_cons_of_neg (by simpa using hother), ih, List.lookup_cons, hother,
        beq_eq_false_iff_ne.mpr h]
    · rw [List.filter_cons_of_pos (by simpa using hother), List.lookup_cons, List.lookup_cons, ih]

/-- Hidden bindings can be dropped. -/
theorem agrees_dropHidden (environment : Environment) :
    environment.Agrees environment.dropHidden := by
  match environment with
  | ⟨[]⟩ => exact fun _ => rfl
  | ⟨(name, value) :: older⟩ =>
    intro sought
    change (define ⟨older⟩ name value).lookup? sought =
      (define ⟨older.filter (·.1 ≠ name)⟩ name value).lookup? sought
    rw [lookup?_define, lookup?_define]
    by_cases hsought : sought = name
    · rw [if_pos hsought, if_pos hsought]
    · rw [if_neg hsought, if_neg hsought]
      exact (lookup_filter_ne older hsought).symm

/-- A binding that a newer one hides can be dropped wherever it is. -/
theorem agrees_hidden (newer between older : List (String × Value)) (name : String)
    (value hidden : Value) :
    Agrees ⟨newer ++ (name, value) :: (between ++ (name, hidden) :: older)⟩
      ⟨newer ++ (name, value) :: (between ++ older)⟩ := by
  induction newer with
  | nil =>
    have hdrop : dropHidden ⟨(name, value) :: (between ++ (name, hidden) :: older)⟩ =
        dropHidden ⟨(name, value) :: (between ++ older)⟩ := by
      simp [dropHidden]
    intro sought
    rw [List.nil_append, agrees_dropHidden, hdrop, ← agrees_dropHidden, List.nil_append]
  | cons binding newer ih => exact ih.define binding.1 binding.2

/-- Neighbouring bindings of different names can be exchanged. -/
theorem agrees_swap (newer older : List (String × Value)) {name other : String}
    (h : name ≠ other) (value otherValue : Value) :
    Agrees ⟨newer ++ (name, value) :: (other, otherValue) :: older⟩
      ⟨newer ++ (other, otherValue) :: (name, value) :: older⟩ := by
  induction newer with
  | nil =>
    intro sought
    change ((define ⟨older⟩ other otherValue).define name value).lookup? sought =
      ((define ⟨older⟩ name value).define other otherValue).lookup? sought
    simp only [lookup?_define]
    split <;> split <;> simp_all
  | cons binding newer ih => exact ih.define binding.1 binding.2

/-- Bindings that a finite map stands for: it gives each name the same value. -/
structure Refines (environment map : Environment) : Prop where
  agrees : environment.Agrees map
  isMap : map.IsMap

/-- Bindings simulate those from which hidden ones have been dropped. -/
theorem simulation_refines : Simulation Refines (fun _ => True) (fun _ => True) where
  empty := ⟨fun _ => rfl, List.nodup_nil⟩
  lookup? h := h.agrees
  operation _ _ := trivial
  proceed := trivial
  return_ _ := trivial

/-- Binding a name again is overwriting its value in the map. -/
theorem Refines.define {environment map : Environment} (h : environment.Refines map)
    (name : String) (value : Value) :
    (environment.define name value).Refines (map.define name value).dropHidden where
  agrees sought := (h.agrees.define name value sought).trans (agrees_dropHidden _ sought)
  isMap := h.isMap.dropHidden_define name value

end Environment

/-- Drops the bindings that the newest one hides. -/
def Eval.dropHidden : Eval Unit :=
  modify fun frame => { frame with environment := frame.environment.dropHidden }

namespace Meaning

/-- A binding that overwrites the value that the name has. -/
def overwrite (name : String) (value : Meaning) : Meaning :=
  ofStatement fun this => do
    Eval.define name (← value.evaluate this)
    Eval.dropHidden
    return .proceed

/-- A meaning that is executed once hidden bindings are dropped. -/
def afterDropping (meaning : Meaning) : Meaning where
  evaluate := meaning.evaluate
  execute this := do
    Eval.dropHidden
    meaning.execute this
  build := meaning.build

end Meaning

namespace Node

/-- The meaning of a node whose parts have the given meanings, with no binding kept that is hidden:
a binding overwrites the value of its name, and so does a counting loop before the body. -/
def assembleOverwriting (rounds : Nat) (part : Nat → Meaning) (node : Node) : Meaning :=
  match node with
  | assign name _ => .overwrite name (part 0)
  | for_ _ _ _ _ _ => node.assemble rounds fun i => (part i).afterDropping
  | _ => node.assemble rounds part

/-- The meaning of a node where binding a name again overwrites its value. -/
def overwritingMeaning (rounds : Nat) (node : Node) : Meaning :=
  let meanings := node.parts.attach.map fun part => part.val.overwritingMeaning rounds
  node.assembleOverwriting rounds fun i => meanings[i]?.getD (null.meaning rounds)
termination_by node
decreasing_by exact sizeOf_lt_of_mem_parts part.property

/-- The meanings of the parts of a node where names are overwritten, by their place. -/
theorem overwritingMeaning_eq (rounds : Nat) (node : Node) :
    node.overwritingMeaning rounds = node.assembleOverwriting rounds fun i =>
      (node.parts[i]?.map (overwritingMeaning rounds)).getD (null.meaning rounds) := by
  rw [overwritingMeaning]
  congr
  funext i
  simp

end Node

/-- A meaning that another one stands for, which keeps a finite map. -/
abbrev Meaning.RefinedBy (mode : Mode) (meaning other : Meaning) : Prop :=
  AlikeIn Environment.Refines (fun _ => False) (fun _ => True) (fun _ => True) mode meaning other

/-- Binding a name and dropping what it hides can not be told apart from binding it. -/
theorem Eval.alike_define_dropHidden (name : String) (value : Value) :
    (define name value).Alike (Frame.Alike Environment.Refines) (fun _ => False) (fun _ => True)
      (fun _ => True) (define name value >>= fun _ => dropHidden) :=
  fun _ _ h => .ended trivial ⟨h.environment.define name value, h.output, h.loopDepth⟩

namespace Node

variable {part other : Nat → Meaning} {mode : Mode}

/-- An assignment is refined by one that overwrites. -/
theorem refinedBy_assign (rounds : Nat) {name : String} {value : Node}
    (h : ∀ mode, Meaning.RefinedBy mode (part 0) (other 0)) :
    Meaning.RefinedBy mode ((assign name value).assemble rounds part)
      (.overwrite name (other 0)) := by
  refine Meaning.alikeIn_ofStatement Environment.simulation_refines (.bind (h (.evaluate _)) ?_)
  intro value _
  rw [← bind_assoc]
  exact .bind (Eval.alike_define_dropHidden name value) fun _ _ => .pure trivial

/-- A loop that counts is refined by one that drops what its number hides in each round. -/
theorem refinedBy_for (rounds : Nat) {name : String} {start stop body : Node} {step : Option Node}
    (hparts : ∀ i < (for_ name start stop step body).parts.length, ∀ mode,
      Meaning.RefinedBy mode (part i) (other i)) :
    Meaning.RefinedBy mode ((for_ name start stop step body).assemble rounds part)
      ((for_ name start stop step body).assemble rounds fun i => (other i).afterDropping) := by
  have hbody (i : Nat) (hi : i < (for_ name start stop step body).parts.length) (value : Value) :
      (Eval.define name value >>= fun _ => (part i).execute mode.object).Alike
        (Frame.Alike Environment.Refines) (fun _ => False) (fun _ => True) (fun _ => True)
        (Eval.define name value >>= fun _ => (other i).afterDropping.execute mode.object) := by
    change Run.Alike _ _ _ _ _ (Eval.define name value >>= fun _ =>
      Eval.dropHidden >>= fun _ => (other i).execute mode.object)
    rw [← bind_assoc]
    exact .bind (Eval.alike_define_dropHidden name value) fun _ _ => hparts i hi (.execute _)
  have hstart := hparts 0 (by simp [parts]) (.evaluate mode.object)
  have hstop := hparts 1 (by simp [parts]) (.evaluate mode.object)
  cases step with
  | none =>
    exact Meaning.alikeIn_for Environment.simulation_refines trivial (fun _ => trivial)
      (fun _ => trivial) name hstart hstop .none (hbody 2 (by simp [parts]))
  | some step =>
    exact Meaning.alikeIn_for Environment.simulation_refines trivial (fun _ => trivial)
      (fun _ => trivial) name hstart hstop (.some (hparts 2 (by simp [parts]) (.evaluate _)))
      (hbody 3 (by simp [parts]))

/-- A node is refined by itself with overwriting parts, if its parts are refined. -/
theorem refinedBy_assembleOverwriting (rounds : Nat) {node : Node}
    (hparts : ∀ i < node.parts.length, ∀ mode, Meaning.RefinedBy mode (part i) (other i)) :
    Meaning.RefinedBy mode (node.assemble rounds part) (node.assembleOverwriting rounds other) := by
  have hassemble (hbinds : ¬ node.Binds) : Meaning.RefinedBy mode (node.assemble rounds part)
      (node.assemble rounds other) :=
    node.alikeIn_assemble Environment.simulation_refines (fun h => absurd h hbinds)
      (node.permits_true mode) rounds fun i hi used _ => hparts i hi used
  cases node with
  | assign name value => exact refinedBy_assign rounds (hparts 0 Nat.zero_lt_one)
  | for_ name start stop step body => exact refinedBy_for rounds hparts
  | _ => exact hassemble id

/-- Every node is refined by its reading that overwrites. -/
theorem refinedBy_overwritingMeaning (rounds : Nat) (node : Node) (mode : Mode) :
    Meaning.RefinedBy mode (node.meaning rounds) (node.overwritingMeaning rounds) := by
  induction node using induction_parts generalizing mode with
  | step node ih =>
    rw [meaning_eq_assemble, overwritingMeaning_eq]
    refine refinedBy_assembleOverwriting rounds fun i hi mode => ?_
    rw [meaningAt, List.getElem?_eq_getElem hi]
    exact ih _ (List.getElem_mem hi) mode

/-- Every node runs alike on bindings that agree. -/
theorem alikeIn_of_agrees (rounds : Nat) (node : Node) (mode : Mode) :
    Meaning.AlikeIn Environment.Agrees (fun _ => False) (fun _ => True) (fun _ => True) mode
      (node.meaning rounds) (node.meaning rounds) :=
  node.alikeIn_meaning Environment.simulation_agrees Environment.Agrees.define
    (C := fun _ _ => True) (fun node mode _ => node.permits_true mode)
    (fun _ _ _ _ _ _ _ => trivial) rounds trivial

end Node

/-- Bindings are a finite map for all that can be seen. Bindings that give each name the same value
lead every reading of every tree, and every call of a block, to the same result or the same error,
with the same output, and to bindings that again give each name the same value. An evaluation that
keeps a finite map, and overwrites the value of a name when it is bound again, goes alike from a map
that stands for the bindings to one that does. Hence neither hidden bindings nor the order of
bindings of different names can be seen. -/
theorem indistinguishable_of_agrees (rounds : Nat) :
    (∀ (node : Node) (mode : Mode), ((node.meaning rounds).read mode).Indistinguishable
      (mode.Alike Environment.Agrees) ((node.meaning rounds).read mode)) ∧
    (∀ (statements : List Node) (this : This),
      (Meaning.callBlock (Node.meanings rounds statements) this).Indistinguishable
        Environment.Agrees (Meaning.callBlock (Node.meanings rounds statements) this)) ∧
    (∀ (node : Node) (mode : Mode), ((node.meaning rounds).read mode).Indistinguishable
      (mode.Alike Environment.Refines) ((node.overwritingMeaning rounds).read mode)) ∧
    (∀ newer between older name value hidden, Environment.Agrees
      ⟨newer ++ (name, value) :: (between ++ (name, hidden) :: older)⟩
      ⟨newer ++ (name, value) :: (between ++ older)⟩) ∧
    ∀ newer older name other value otherValue, name ≠ other → Environment.Agrees
      ⟨newer ++ (name, value) :: (other, otherValue) :: older⟩
      ⟨newer ++ (other, otherValue) :: (name, value) :: older⟩ := by
  refine ⟨fun node mode => ?_, fun statements this => ?_, fun node mode => ?_,
    Environment.agrees_hidden, fun newer older _ _ value otherValue hne =>
      Environment.agrees_swap newer older hne value otherValue⟩
  · exact Run.Alike.indistinguishable (node.alikeIn_of_agrees rounds mode)
  · refine Run.Alike.indistinguishable (Meaning.alike_callBlock (fun _ => trivial)
      (fun _ => trivial) (Meaning.alike_sequence Environment.simulation_agrees ?_))
    rw [Node.meanings_eq_map, List.forall₂_map_left_iff, List.forall₂_map_right_iff,
      List.forall₂_same]
    exact fun statement _ => statement.alikeIn_of_agrees rounds (.execute this)
  · exact Run.Alike.indistinguishable (node.refinedBy_overwritingMeaning rounds mode)

/-- A block that adds 1 and 2 to the value of `x` and returns the sum. -/
def sumNode : Node :=
  .block [.for_ "i" (.integer 1) (.integer 2) none
      (.assign "x" (.binary .add (.lookup "x") (.lookup "i"))),
    .return_ (.lookup "x")]

/-- The sum is the same, and ends alike, in either order of two bindings, and with a map in place of
bindings that hide one another. -/
theorem indistinguishable_sumNode :
    "x" ≠ "y" ∧
      Option.Rel (fun outcome other => outcome.1 = other.1 ∧ outcome.2.Agrees other.2)
        ((sumNode.meaning 0).build .nested none ⟨[("x", .integer 5), ("y", .null)]⟩)
        ((sumNode.meaning 0).build .nested none ⟨[("y", .null), ("x", .integer 5)]⟩) ∧
      Option.Rel (fun outcome other => outcome.1 = other.1 ∧ outcome.2.Refines other.2)
        ((sumNode.meaning 0).build .nested none ⟨[("x", .integer 5), ("x", .null)]⟩)
        ((sumNode.overwritingMeaning 0).build .nested none ⟨[("x", .integer 5)]⟩) := by
  obtain ⟨hmeaning, -, hoverwriting, hhidden, hswap⟩ := indistinguishable_of_agrees 0
  have hne : "x" ≠ "y" := by decide
  have hagrees := hswap [] [] "x" "y" (.integer 5) .null hne
  have hrefines : Environment.Refines ⟨[("x", .integer 5), ("x", .null)]⟩ ⟨[("x", .integer 5)]⟩ :=
    ⟨hhidden [] [] [] "x" (.integer 5) .null, List.pairwise_singleton _ _⟩
  exact ⟨hne, hmeaning sumNode (.build .nested none) _ _ hagrees,
    hoverwriting sumNode (.build .nested none) _ _ hrefines⟩

end JsonTemplate
