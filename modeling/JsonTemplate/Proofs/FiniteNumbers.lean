import JsonTemplate.Proofs.Evaluation.CallsInTurn
import JsonTemplate.Proofs.Evaluation.ParsedTrees
import JsonTemplate.Proofs.Evaluation.ThisScope
import JsonTemplate.Proofs.Scanner.Tiling
import JsonTemplate.Proofs.Value.Finite

/-!
# No infinity and no not-a-number

A numeral that is too large is no token, so all doubles in a parsed tree are finite, and what is
computed from them stays finite: the bindings, the output of each block, the object being built and
the result of each reading that is reached. The conversions to JSON never fail, the error of numbers
that are not finite is raised by nothing but a binary operator whose result as a double is not
finite, and no joined text has the text of an infinity or a not-a-number in it.
-/

namespace JsonTemplate

/-- The tokens behind a path are among those before it. -/
theorem PathDerives.subset {path : List Accessor} {input rest : List TokenKind}
    (h : PathDerives path input rest) : rest ⊆ input := by
  induction h with
  | stop => exact List.Subset.refl _
  | name _ ih | word _ ih =>
    exact List.subset_cons_of_subset _ (List.subset_cons_of_subset _ ih)
  | index _ ih | key _ ih =>
    exact List.subset_cons_of_subset _ (List.subset_cons_of_subset _
      (List.subset_cons_of_subset _ ih))

/-- The tokens behind a phrase are among those before it. -/
theorem Derives.subset {phrase : Phrase} {levels : Nat} {tree : Node}
    {input rest : List TokenKind} (h : Derives phrase levels tree input rest) : rest ⊆ input := by
  induction h with
  | this hpath => exact List.subset_cons_of_subset _ hpath.subset
  | _ => grind

/-- Each double in a derived tree is that of a token. -/
theorem Derives.float_mem {phrase : Phrase} {levels : Nat} {tree : Node}
    {input rest : List TokenKind} (h : Derives phrase levels tree input rest) {x : Double}
    (hx : (Node.float x).Occurs tree) : .float x ∈ input := by
  induction h with
  | objectEnd | arrayEnd | blockEnd | least | integer | string | true_ | false_ | null | name
  | this =>
    cases hx with
    | inside hpart => cases hpart
  | float =>
    cases hx with
    | here => exact List.mem_cons_self
    | inside hpart => cases hpart
  | objectComma _ ih | arrayComma _ ih | blockSemicolon _ ih | nestedObject _ ih
  | nestedArray _ ih | group _ ih => exact List.mem_cons_of_mem _ (ih hx)
  | expressionValue _ ih | expressionStatement _ _ ih | expression _ _ ih | term _ ih
  | operand _ ih | unsigned _ ih => exact ih hx
  | blockValue _ ih => exact List.mem_cons_of_mem _ (List.mem_cons_of_mem _ (ih hx))
  | objectMember hvalue _ ihValue ihMore =>
    obtain ⟨part, hpart, hin⟩ := hx.exists_part nofun
    refine List.mem_cons_of_mem _ (List.mem_cons_of_mem _ ?_)
    rcases List.mem_cons.mp hpart with rfl | hmore
    · exact ihValue hin
    · exact hvalue.subset (ihMore (.inside hmore hin))
  | arrayElement hvalue _ ihValue ihMore =>
    obtain ⟨part, hpart, hin⟩ := hx.exists_part nofun
    rcases List.mem_cons.mp hpart with rfl | hmore
    · exact ihValue hin
    · exact hvalue.subset (ihMore (.inside hmore hin))
  | blockStatement hstatement _ _ ihStatement ihMore =>
    obtain ⟨part, hpart, hin⟩ := hx.exists_part nofun
    rcases List.mem_cons.mp hpart with rfl | hmore
    · exact ihStatement hin
    · exact hstatement.subset (ihMore (.inside hmore hin))
  | binding _ ih =>
    obtain ⟨part, hpart, hin⟩ := hx.exists_part nofun
    obtain rfl := List.mem_singleton.mp hpart
    exact List.mem_cons_of_mem _ (List.mem_cons_of_mem _ (List.mem_cons_of_mem _ (ih hin)))
  | assignment _ ih =>
    obtain ⟨part, hpart, hin⟩ := hx.exists_part nofun
    obtain rfl := List.mem_singleton.mp hpart
    exact List.mem_cons_of_mem _ (List.mem_cons_of_mem _ (ih hin))
  | returning _ ih | negation _ ih =>
    obtain ⟨part, hpart, hin⟩ := hx.exists_part nofun
    obtain rfl := List.mem_singleton.mp hpart
    exact List.mem_cons_of_mem _ (ih hin)
  | addend _ hleft _ ihLeft ihRight | factor _ hleft _ ihLeft ihRight =>
    obtain ⟨part, hpart, hin⟩ := hx.exists_part nofun
    rcases List.mem_cons.mp hpart with rfl | hright
    · exact ihLeft hin
    · obtain rfl := List.mem_singleton.mp hright
      exact hleft.subset (List.mem_cons_of_mem _ (ihRight hin))

/-- A float in the tree of a document is one of its tokens. -/
theorem DocumentDerives.float_mem {tree : Node} {input : List TokenKind}
    (h : DocumentDerives tree input) {x : Double} (hx : (Node.float x).Occurs tree) :
    .float x ∈ input := by
  cases h with
  | object hderives | array hderives => exact List.mem_cons_of_mem _ (hderives.float_mem hx)

/-- A float among the lexemes of a text is finite. -/
theorem Tiling.isFinite_of_mem {offset : Nat} {text : List Char} {lexemes : List Token}
    (h : Tiling offset text lexemes) {x : Double} (hx : .float x ∈ kinds lexemes) : x.isFinite := by
  induction h with
  | blank => cases hx
  | lexeme _ hlongest _ _ _ ih =>
    rcases List.mem_cons.mp hx with rfl | hrest
    · cases hlongest.spells with
      | float _ _ hfinite => exact hfinite
    · exact ih hrest

/-- Each double that is scanned is finite. -/
theorem isFinite_of_tokenize {source : String} {tokens : List Token}
    (h : tokenize source = .ok tokens) {x : Double} (hx : .float x ∈ kinds tokens) :
    x.isFinite := by
  obtain ⟨lexemes, htiling, rfl⟩ := Scanner.tiling_of_tokens h
  refine htiling.isFinite_of_mem ?_
  rw [kinds, List.map_append] at hx
  rcases List.mem_append.mp hx with hlexeme | hend
  · exact hlexeme
  · cases List.mem_singleton.mp hend

/-- All doubles in the tree of a source are finite. -/
theorem isFinite_of_parse {source : String} {tokens : List Token} {tree : Node}
    (htokens : tokenize source = .ok tokens) (hparse : parse tokens = .ok tree) {x : Double}
    (hx : (Node.float x).Occurs tree) : x.isFinite := by
  rw [parse_eq_ok_iff_document, Grammar.document_eq_ok_iff] at hparse
  refine isFinite_of_tokenize htokens ?_
  exact ((List.takeWhile_sublist _).map _).subset (hparse.float_mem hx)

namespace Node

/-- A literal of JSON. All other nodes are built from the values that they are evaluated to. -/
def IsLiteral : Node → Prop
  | object _ | array _ | string _ | integer _ | boolean _ | null => True
  | _ => False

/-- The values that a reading of a node converts to JSON: that of the node itself, if it is built
and no literal, and those of the elements of an array that it evaluates. -/
inductive Converts (rounds : Nat) : Node → Task → Value → Prop
  | built {node : Node} {scope : Scope} {this : This} {environment : Environment} {value : Value}
      {after : Frame} : ¬node.IsLiteral →
      (node.meaning rounds).evaluate (node.seen (.build scope this))
        (Mode.frame (.build scope this) environment) = some (.ok value, after) →
      Converts rounds node ⟨.build scope this, environment⟩ value
  | element {elements : List Node} {task : Task} {i : Nat} {part : Node} {this : This}
      {frame after : Frame} {value : Value} : elements[i]? = some part →
      (array elements).Calls rounds task i ⟨.evaluate this, frame⟩ →
      (part.meaning rounds).evaluate this frame = some (.ok value, after) →
      Converts rounds (array elements) task value

/-- The values whose texts a reading of a node joins: the operands of an addition of which one is a
text, and the output of a block. -/
inductive Joins (rounds : Nat) (task : Task) : Node → Value → Prop
  | operand {node : Node} {l r value : Value} : node.Operands rounds task .add l r →
      l.isText ∨ r.isText → value = l ∨ value = r → Joins rounds task node value
  | output {statements : List Node} {after : Frame} {value : Value} :
      (∀ this, task.mode ≠ .execute this) →
      Meaning.sequence task.mode.this (meanings rounds statements)
        ⟨task.frame.environment, #[], 0⟩ = some (.ok .proceed, after) →
      value ∈ after.output → Joins rounds task (block statements) value

/-- The operator of a node fails because its result as a double is not finite, although those of its
operands are. -/
def Overflows (rounds : Nat) (node : Node) (task : Task) : Prop :=
  ∃ operator l r, node.Operands rounds task operator l r ∧
    Value.apply operator l r = .error .nonFiniteNumber ∧ Value.Overflows operator l r

/-- A reading with finite numbers throughout. -/
structure StaysFinite (rounds : Nat) (node : Node) (task : Task) : Prop where
  /-- The bindings, the output and the object being built that the reading starts from. -/
  start : task.All Value.IsFinite Json.IsFinite
  /-- What the reading gives, and the bindings and the output that it leaves. -/
  outcome : ∀ result after, (node.meaning rounds).perform task = some (result, after) →
    task.mode.StateAll Value.IsFinite after ∧
      IfOk (task.mode.ResultAll Value.IsFinite Json.IsFinite) result
  converted : ∀ value, node.Converts rounds task value →
    value.IsFinite ∧ ∃ json, value.toJson = .ok json
  raised : (node.meaning rounds).FailsWith task .nonFiniteNumber →
    node.Overflows rounds task ∨ node.PassesOn rounds task .nonFiniteNumber
  joined : ∀ value, node.Joins rounds task value → value.SpellsFinitely

variable {rounds : Nat} {node : Node} {task : Task} {role : Role}

/-- The object that a node which is built lets its parts see is finite if that of the node is. -/
theorem all_seen {V : Value → Prop} {J : Json → Prop} (node : Node) (h : task.All V J) :
    This.All J (node.seen task.mode) := by
  cases node with
  | block statements => exact h.this
  | _ => exact h.object

section

variable (hfloat : ∀ x, (float x).Occurs node → x.isFinite)
  (htask : task.All Value.IsFinite Json.IsFinite)

include hfloat

/-- A float in a tree is a finite value. -/
theorem isFinite_float_of_occurs (x : Double) (hx : (float x).Occurs node) :
    Value.IsFinite (.float x) :=
  Value.isFinite_float.mpr (hfloat x hx)

/-- The meaning of a node keeps everything finite. -/
theorem keeps_isFinite : (node.meaning rounds).Keeps Value.IsFinite Json.IsFinite :=
  keeps_meaning stable_isFinite rounds (isFinite_float_of_occurs hfloat)

/-- The parts of a node keep everything finite. -/
theorem part_keeps_isFinite {part : Node} (hpart : part ∈ node.parts) :
    (part.meaning rounds).Keeps Value.IsFinite Json.IsFinite :=
  keeps_isFinite fun x hx => hfloat x (.inside hpart hx)

include htask

/-- What a node converts to JSON is finite. -/
theorem Converts.isFinite {value : Value} (h : node.Converts rounds task value) :
    value.IsFinite := by
  cases h with
  | built _ hevaluate =>
    have hseen := node.all_seen htask
    exact ((keeps_isFinite hfloat).evaluate _ hseen _ htask.frame _ _ hevaluate).2
  | element hget hcalls hevaluate =>
    have hcalled := (hcalls.within stable_isFinite (isFinite_float_of_occurs hfloat) htask).all
    have hpart := List.mem_of_getElem? hget
    exact ((part_keeps_isFinite hfloat hpart).perform hcalled hevaluate).2

/-- What a node joins to a text is finite. -/
theorem Joins.isFinite {value : Value} (h : Joins rounds task node value) : value.IsFinite := by
  cases h with
  | operand h _ heither =>
    obtain ⟨hl, hr⟩ := h.all stable_isFinite (isFinite_float_of_occurs hfloat) htask
    rcases heither with rfl | rfl
    · exact hl
    · exact hr
  | output _ hsequence hvalue =>
    have hframe : Frame.All Value.IsFinite ⟨task.frame.environment, #[], 0⟩ :=
      ⟨htask.frame.environment, nofun⟩
    refine (Meaning.keeps_sequence ?_ _ htask.this _ hframe _ _ hsequence).1.output _ hvalue
    intro statement hstatement
    rw [meanings_eq_map] at hstatement
    obtain ⟨part, hpart, rfl⟩ := List.mem_map.mp hstatement
    exact part_keeps_isFinite hfloat hpart

/-- No construct but an operator that overflows raises the error of numbers that are not finite. -/
theorem overflows_or_passesOn (hrole : InRole role node)
    (hfails : (node.meaning rounds).FailsWith task .nonFiniteNumber) :
    node.Overflows rounds task ∨ node.PassesOn rounds task .nonFiniteNumber := by
  have own : RaisesOwn Value.IsFinite
      fun error => error = .nonFiniteNumber → node.Overflows rounds task := by
    refine ⟨?_, fun value hvalue => ?_, fun operand hoperand => ?_⟩
    · rintro _ hoperation - rfl
      exact absurd trivial hoperation
    · obtain ⟨json, hjson, -⟩ := Value.exists_toJson hvalue
      rw [hjson]
      trivial
    · exact (Value.admits_neg hoperand).mono (fun _ hne h => absurd h hne) fun _ _ => trivial
  refine (raises_or_passesOn stable_isFinite own (isFinite_float_of_occurs hfloat) htask
    (fun operator l r h => ?_) (fun error hleaves _ => ?_) hfails).imp_left fun h => h rfl
  rotate_left
  · cases node with
    | break_ | continue_ => exact absurd trivial hrole.not_isControl
    | _ => exact hleaves.elim
  obtain ⟨hl, hr⟩ := h.all stable_isFinite (isFinite_float_of_occurs hfloat) htask
  have hends := Value.operatesFinitely_apply operator hl hr
  cases happly : Value.apply operator l r with
  | ok value => trivial
  | error error =>
    rw [happly] at hends
    rintro rfl
    exact ⟨operator, l, r, h, happly, hends rfl⟩

/-- From finite numbers every reading of a node with finite doubles goes on with finite numbers. -/
theorem staysFinite (hrole : InRole role node) : node.StaysFinite rounds task where
  start := htask
  outcome _ _ hperform := (keeps_isFinite hfloat).perform htask hperform
  converted _ hconverts := by
    have hfinite := hconverts.isFinite hfloat htask
    obtain ⟨json, hjson, -⟩ := Value.exists_toJson hfinite
    exact ⟨hfinite, json, hjson⟩
  raised := overflows_or_passesOn hfloat htask hrole
  joined _ hjoins := (hjoins.isFinite hfloat htask).spellsFinitely

end

section

variable {tree : Node} {start : Task} (htree : InRole role tree)
  (hfloat : ∀ x, (float x).Occurs tree → x.isFinite)
  (hstart : start.All Value.IsFinite Json.IsFinite)

include htree hfloat hstart

/-- All readings that are reached from finite numbers go on with finite numbers. -/
theorem Reached.staysFinite {place : List Nat} (h : node.Reached rounds task tree start place) :
    node.StaysFinite rounds task := by
  obtain ⟨_, hnode⟩ := h.occurs.inRole htree
  have htask := h.all stable_isFinite (isFinite_float_of_occurs hfloat) hstart
  exact Node.staysFinite (fun x hx => hfloat x (hx.trans h.occurs)) htask hnode

/-- The error of numbers that are not finite comes from a node that is reached and overflows. -/
theorem failsWith_nonFinite_iff :
    (tree.meaning rounds).FailsWith start .nonFiniteNumber ↔
      ∃ node task place, Reached rounds node task tree start place ∧
        node.Overflows rounds task := by
  constructor
  · refine exists_reached_of_failsWith (C := fun node task => (∃ role, InRole role node) ∧
      (∀ x, (float x).Occurs node → x.isFinite) ∧ task.All Value.IsFinite Json.IsFinite) ?_ ?_
      ⟨⟨_, htree⟩, hfloat, hstart⟩
    · rintro node task i part called ⟨⟨_, hnode⟩, hfloat, htask⟩ hpart hcalls
      have hmem := List.mem_of_getElem? hpart
      have hcalled := hcalls.within stable_isFinite (isFinite_float_of_occurs hfloat) htask
      exact ⟨⟨_, hnode.part hmem⟩, fun x hx => hfloat x (.inside hmem hx), hcalled.all⟩
    · rintro node task ⟨⟨_, hnode⟩, hfloat, htask⟩
      exact overflows_or_passesOn hfloat htask hnode
  · rintro ⟨node, task, place, hreached, operator, l, r, hoperands, happly, -⟩
    exact hreached.failsWith (hoperands.failsWith happly)

end

end Node

/-- In building the document of a source there is never an infinity or a not-a-number. Each reading
that is reached starts from finite numbers and gives and leaves finite numbers, its conversions to
JSON never fail, the texts that it joins spell only finite numbers, and the error of numbers that
are not finite is passed on from a part or raised by a binary operator that overflows. So the
document fails with that error exactly if such an operator is reached. -/
theorem staysFinite_of_parse {source : String} {tokens : List Token} {document : Node}
    (htokens : tokenize source = .ok tokens) (hparse : parse tokens = .ok document)
    (rounds : Nat) :
    (∀ node task place, Node.Reached rounds node task document Interpreter.new.task place →
      node.StaysFinite rounds task) ∧
    (Interpreter.new.result rounds document = some (.error .nonFiniteNumber) ↔
      ∃ node task place, Node.Reached rounds node task document Interpreter.new.task place ∧
        node.Overflows rounds task) := by
  have hrole := inRole_of_parse hparse
  have hfloat (x : Double) (hx : (Node.float x).Occurs document) : x.isFinite :=
    isFinite_of_parse htokens hparse hx
  have hstart : Interpreter.new.task.All Value.IsFinite Json.IsFinite :=
    ⟨This.all_none, Environment.all_empty⟩
  constructor
  · intro node task place hreached
    exact hreached.staysFinite hrole hfloat hstart
  · rw [← Interpreter.failsWith_iff]
    exact Node.failsWith_nonFinite_iff hrole hfloat hstart

/-- The double nearest to `10 ^ 308`. -/
def hugeDouble : Double := ⟨false, 0x7FE1CCF385EBC8A0, by decide⟩

/-- The tree of `[1e308*10]`. -/
def hugeProduct : Node := .array [.binary .mul (.float hugeDouble) (.integer 10)]

/-- The tokens of a product that overflows. -/
def hugeProductTokens : List Token :=
  [⟨.symbol .leftBracket, ⟨0, 1⟩⟩, ⟨.float hugeDouble, ⟨1, 6⟩⟩, ⟨.symbol .star, ⟨6, 7⟩⟩,
    ⟨.integer 10, ⟨7, 9⟩⟩, ⟨.symbol .rightBracket, ⟨9, 10⟩⟩, ⟨.endOfInput, ⟨10, 10⟩⟩]

/-- A product of finite numbers that is not finite is the error of its document. -/
theorem staysFinite_hugeProduct :
    tokenize "[1e308*10]" = .ok hugeProductTokens ∧ parse hugeProductTokens = .ok hugeProduct ∧
      hugeProduct.StaysFinite 0 Interpreter.new.task ∧
      Interpreter.new.result 0 hugeProduct = some (.error .nonFiniteNumber) := by
  have htokens : tokenize "[1e308*10]" = .ok hugeProductTokens := by decide +kernel
  have hparse : parse hugeProductTokens = .ok hugeProduct := by with_unfolding_all rfl
  obtain ⟨hfinite, hresult⟩ := staysFinite_of_parse htokens hparse 0
  have hoperands : Node.Operands 0 ⟨.build .root none, .empty⟩
      (.binary .mul (.float hugeDouble) (.integer 10)) .mul (.float hugeDouble) (.integer 10) :=
    .intro rfl rfl
  have hproduct : ¬(hugeDouble.mul (.ofInt (10 : Int64).toInt)).isFinite := by decide +kernel
  have happly : Value.apply .mul (.float hugeDouble) (.integer 10) = .error .nonFiniteNumber := by
    simp only [Value.apply, Value.mul, Value.isText, Bool.or_self, Bool.false_eq_true, if_false,
      Value.arithmetic, Value.asDouble?, Value.ofDouble, hproduct]
  have hoverflows : Value.Overflows .mul (.float hugeDouble) (.integer 10) :=
    ⟨_, _, rfl, rfl, by decide, Double.isFinite_ofInt 10, hproduct⟩
  have hcalls : hugeProduct.Calls 0 Interpreter.new.task 0 ⟨.build .root none, .empty⟩ :=
    Node.calls_element rfl rfl
  refine ⟨htokens, hparse, hfinite _ _ _ .here, hresult.mpr ?_⟩
  exact ⟨_, _, _, .inside rfl hcalls .here, .mul, _, _, hoperands, happly, hoverflows⟩

end JsonTemplate
