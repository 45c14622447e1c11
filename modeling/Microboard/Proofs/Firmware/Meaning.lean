import Microboard.Compiler.Command
import Microboard.Program.Evaluation

/-!
# What commands mean

The names and literals of a statement are looked up once, when it becomes a command; evaluation
looks them up again each time. Both come to the same: a step of a program does what the first of its
commands does, and goes on with what is to come behind that command (`step?_cases`).
-/

namespace Microboard

/-! ### Values -/

namespace Scene

def source (scene : Scene) : Source → UInt8
  | .variable v => scene.value v
  | .literal value => value

def shifted (scene : Scene) (value : Shifted) : UInt8 :=
  match value.sign with
  | .plus => scene.value value.base + value.amount
  | .minus => scene.value value.base - value.amount

def coordinate (scene : Scene) : Coordinate → UInt8
  | .plain source => scene.source source
  | .shifted value => scene.shifted value

def printAll (scene : Scene) : List UInt8 → Scene × List Event
  | [] => (scene, [])
  | c :: cs =>
    let (after, events) := { scene with panel := (scene.panel.print c).1 }.printAll cs
    (after, (scene.panel.print c).2 ++ events)

theorem print_eq (scene : Scene) (text : List Char) :
    scene.print text = scene.printAll (text.map fun c => UInt8.ofNat (c.toNat % 256)) := by
  induction text generalizing scene with
  | nil => rfl
  | cons c text ih => simp only [print, List.map_cons, printAll, ih]

end Scene

/-! ### Commands -/

namespace Command

/-- What a command does at once. -/
def effect (c : Command) (scene : Scene) : Scene × List Event :=
  match c with
  | .load target value => (scene.assign target value, [])
  | .negate target source => (scene.assign target (0 - scene.value source), [])
  | .increase target source =>
    (scene.assign target (scene.value target + scene.value source), [])
  | .pixel x y => (scene, [.pixel (scene.coordinate x) (scene.coordinate y)])
  | .print text => scene.printAll text
  | .clear => ({ scene with panel := scene.panel.clear.1 }, scene.panel.clear.2)
  | .move x y => scene.move (scene.source x) y
  | .branch .. | .loop _ | .delay _ | .skipped .. => (scene, [])

/-- What is to come behind a command. -/
def proceed (c : Command) (scene : Scene) (rest : List Command) : List Command :=
  match c with
  | .branch left comparison right body =>
    if comparison.holds (scene.value left) right then body ++ rest else rest
  | .loop body => body ++ .loop body :: rest
  | _ => rest

end Command

/-! ### Statements and their commands -/

namespace Statement

theorem resolveAll_append (ss rest : List Statement) :
    resolveAll (ss ++ rest) = resolveAll ss ++ resolveAll rest := by
  induction ss with
  | nil => rfl
  | cons s ss ih => simp only [List.cons_append, resolveAll, ih]

end Statement

theorem Coordinate.resolve_eq (scene : Scene) (e : Expression) :
    scene.coordinate? e =
      match Coordinate.resolve e with
      | .ok c => some (scene.coordinate c)
      | .error _ => none := by
  cases e with
  | name name =>
    simp only [Scene.coordinate?, Scene.column?, Scene.lookup?, Coordinate.resolve,
      Variable.resolve]
    cases Variable.ofName? name <;> rfl
  | literal value => rfl
  | negation operand => rfl
  | shifted base sign amount =>
    simp only [Coordinate.resolve, Variable.resolve]
    cases sign <;> simp only [Scene.coordinate?, Scene.lookup?] <;>
      cases Variable.ofName? base <;> rfl

theorem Source.resolve_eq (scene : Scene) (e : Expression) :
    scene.column? e =
      match Source.resolve e with
      | .ok s => some (scene.source s)
      | .error _ => none := by
  cases e with
  | name name =>
    simp only [Scene.column?, Scene.lookup?, Source.resolve, Variable.resolve]
    cases Variable.ofName? name <;> rfl
  | _ => rfl

/-- An assignment to a known variable either has a value, which is what its command assigns, or has
    neither a value nor a command. -/
theorem resolveAssignment_cases (scene : Scene) {name : String} {v : Variable}
    (hname : Variable.ofName? name = some v) (op : AssignOp) (e : Expression) :
    (∃ c value, resolveAssignment name op e = .ok c ∧ scene.assigned? v op e = some value ∧
        c.effect scene = (scene.assign v value, []) ∧
        ∀ rest, c.proceed scene rest = rest) ∨
      ∃ reason, resolveAssignment name op e = .error reason ∧ scene.assigned? v op e = none := by
  have hresolve : Variable.resolve name = .ok v := by simp only [Variable.resolve, hname]
  cases op with
  | set =>
    cases e with
    | literal value =>
      left
      refine ⟨.load v (lowByte value), lowByte value, ?_, rfl, rfl, fun _ => rfl⟩
      simp only [resolveAssignment, hresolve]
      rfl
    | negation operand =>
      cases operand with
      | name source =>
        simp only [resolveAssignment, Variable.resolve, hname, Scene.assigned?, Scene.lookup?, bind,
          Except.bind]
        cases Variable.ofName? source with
        | none => exact Or.inr ⟨_, rfl, rfl⟩
        | some w => exact Or.inl ⟨.negate v w, _, rfl, rfl, rfl, fun _ => rfl⟩
      | _ =>
        right
        simp only [resolveAssignment, hresolve]
        exact ⟨_, rfl, rfl⟩
    | _ =>
      right
      simp only [resolveAssignment, hresolve]
      exact ⟨_, rfl, rfl⟩
  | add =>
    cases e with
    | name source =>
      simp only [resolveAssignment, Variable.resolve, hname, Scene.assigned?, Scene.lookup?, bind,
        Except.bind]
      cases Variable.ofName? source with
      | none => exact Or.inr ⟨_, rfl, rfl⟩
      | some w => exact Or.inl ⟨.increase v w, _, rfl, rfl, rfl, fun _ => rfl⟩
    | _ =>
      right
      simp only [resolveAssignment, hresolve]
      exact ⟨_, rfl, rfl⟩
  | subtract =>
    right
    simp only [resolveAssignment, hresolve]
    exact ⟨_, by cases e <;> rfl, by cases e <;> rfl⟩

/-- A statement does what its command does. -/
theorem Situation.evaluate_eq (s : Statement) (rest : List Statement) (scene : Scene) :
    Statement.resolveAll (evaluate s rest scene).1.rest =
        s.resolve.proceed scene (Statement.resolveAll rest) ∧
      ((evaluate s rest scene).1.scene, (evaluate s rest scene).2) = s.resolve.effect scene := by
  cases s with
  | declare name value =>
    simp only [evaluate, Statement.resolve, Variable.resolve]
    cases Variable.ofName? name <;> exact ⟨rfl, rfl⟩
  | assign name op e =>
    simp only [evaluate, Statement.resolve]
    cases hname : Variable.ofName? name with
    | none =>
      simp only [resolveAssignment, Variable.resolve, hname]
      exact ⟨rfl, rfl⟩
    | some v =>
      rcases resolveAssignment_cases scene hname op e with
        ⟨c, value, hresolve, hvalue, heffect, hproceed⟩ | ⟨reason, hresolve, hvalue⟩
      · simp only [hresolve, hvalue, Statement.orSkipped, hproceed, heffect, and_self]
      · simp only [hresolve, hvalue, Statement.orSkipped]
        exact ⟨rfl, rfl⟩
  | branch left comparison right body =>
    simp only [evaluate, Statement.resolve, Variable.resolve, Scene.lookup?]
    cases Variable.ofName? left with
    | none => exact ⟨rfl, rfl⟩
    | some v =>
      show _ = Command.proceed (.branch v comparison (lowByte right) _) scene _ ∧ _
      simp only [Option.map_some, Command.proceed]
      split
      · exact ⟨Statement.resolveAll_append body rest, rfl⟩
      · exact ⟨rfl, rfl⟩
  | loop body =>
    refine ⟨?_, rfl⟩
    simp only [evaluate, Statement.resolveAll_append]
    rfl
  | pixel x y =>
    simp only [evaluate, Coordinate.resolve_eq, Statement.resolve]
    cases Coordinate.resolve x with
    | error reason => exact ⟨rfl, rfl⟩
    | ok a =>
      cases Coordinate.resolve y with
      | error reason => exact ⟨rfl, rfl⟩
      | ok b => exact ⟨rfl, rfl⟩
  | print text =>
    simp only [evaluate, Scene.print_eq]
    exact ⟨rfl, rfl⟩
  | clear => exact ⟨rfl, rfl⟩
  | move x y =>
    simp only [evaluate, Source.resolve_eq, Statement.resolve]
    cases Source.resolve x with
    | error reason => exact ⟨rfl, rfl⟩
    | ok a => exact ⟨rfl, rfl⟩
  | delay cycles => exact ⟨rfl, rfl⟩

/-! ### Steps in a row -/

namespace Situation

/-- What a step does is what the first command does. -/
theorem step?_cases (s : Situation) :
    (s.rest = [] ∧ s.step? = none) ∨
      ∃ c rest next events, Statement.resolveAll s.rest = c :: rest ∧
        s.step? = some (next, events) ∧
        Statement.resolveAll next.rest = c.proceed s.scene rest ∧
        (next.scene, events) = c.effect s.scene := by
  rcases s with ⟨_ | ⟨first, rest⟩, scene⟩
  · exact Or.inl ⟨rfl, rfl⟩
  · right
    obtain ⟨hrest, heffect⟩ := evaluate_eq first rest scene
    exact ⟨first.resolve, Statement.resolveAll rest, _, _, rfl, rfl, hrest, heffect⟩

def after : Nat → Situation → Situation
  | 0, s => s
  | n + 1, s =>
    match s.step? with
    | none => s
    | some (next, _) => next.after n

theorem after_of_end {s : Situation} (h : s.step? = none) (n : Nat) : s.after n = s := by
  cases n with
  | zero => rfl
  | succ n => rw [after, h]

theorem trace_of_end {s : Situation} (h : s.step? = none) (n : Nat) : s.trace n = [] := by
  cases n with
  | zero => rfl
  | succ n => rw [trace, h]

theorem after_add (k n : Nat) (s : Situation) : s.after (k + n) = (s.after k).after n := by
  induction k generalizing s with
  | zero => rw [Nat.zero_add]; rfl
  | succ k ih =>
    rw [Nat.add_right_comm, after, after]
    cases hstep : s.step? with
    | none => exact (after_of_end hstep n).symm
    | some taken => exact ih taken.1

theorem trace_add (k n : Nat) (s : Situation) :
    s.trace (k + n) = s.trace k ++ (s.after k).trace n := by
  induction k generalizing s with
  | zero => rw [Nat.zero_add]; rfl
  | succ k ih =>
    rw [Nat.add_right_comm, trace, trace, after]
    cases hstep : s.step? with
    | none => exact (trace_of_end hstep n).symm
    | some taken =>
      show taken.2 ++ taken.1.trace (k + n) =
        taken.2 ++ taken.1.trace k ++ (taken.1.after k).trace n
      rw [ih, List.append_assoc]

end Situation

end Microboard
