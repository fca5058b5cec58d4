import Hsm.Request.Basic
/-! Requests on documents: compile one, query a compiled one, and dump descriptions, documents,
content and registries. -/
namespace Hsm
namespace Request
open Json

def compileDoc (v : Value) : Except ChartError Document :=
  describe v (Machines.compile ((v.get? "doc").getD .null))

def build (v : Value) : Value :=
  match compileDoc v with
  | .ok d => answer [("document", d.toValue)]
  | .error err => err.toValue

/-- A reference to a state: an authored id, or an index below the number of states. -/
def stateRef (d : Document) (v : Value) : Except String Nat :=
  match v with
  | .str id =>
    match d.lookup id with
    | some s => .ok s
    | none => .error ("unknown state " ++ id)
  | .num (.nat n) => if n < d.size then .ok n else .error "bad state reference"
  | _ => .error "bad state reference"

def refOf (d : Document) (q : Value) (key : String) : Except String Nat :=
  stateRef d ((q.get? key).getD .null)

def orderingValue : Ordering → Value
  | .lt => .str "Less"
  | .eq => .str "Equal"
  | .gt => .str "Greater"

/-- The value of one query. -/
def queryValue (d : Document) (q : Value) : Except String Value := do
  let ref := refOf d q
  let bool1 (f : Nat → Bool) : Except String Value := do pure (.bool (f (← ref "a")))
  let pair {β : Type} (f : Nat → Nat → β) : Except String β := do
    let a ← ref "a"
    let b ← ref "b"
    pure (f a b)
  let need (key message : String) : Except String String :=
    match q.get? key with
    | some (.str x) => .ok x
    | _ => .error message
  match ← need "q" "query needs q" with
  | "lookup" => do pure (opt (fun s => .num (.nat s)) (d.lookup (← need "id" "lookup needs id")))
  | "is_descendant" => .bool <$> pair d.isDescendant
  | "compatible" => .bool <$> pair d.compatible
  | "nearest_common_ancestor" => (fun s => .str (d.name s)) <$> pair d.nearestCommonAncestor
  | "proper_ancestors" => do
    let a ← ref "a"
    let upto ← match q.get? "upto" with
      | none | some .null => pure none
      | some u => some <$> stateRef d u
    pure (strs ((d.properAncestors a upto).map d.name))
  | "is_legal_set" => do
    let states ← match q.get? "states" with
      | some (.arr xs) => xs.mapM (stateRef d)
      | _ => .error "needs states"
    pure (.bool (d.isLegalSet states))
  | "entry_cmp" => orderingValue <$> pair d.entryCmp
  | "exit_cmp" => orderingValue <$> pair d.exitCmp
  | "document_cmp" => orderingValue <$> pair d.documentCmp
  | "is_atomic" => bool1 d.isAtomic
  | "is_compound" => bool1 d.isCompound
  | "is_parallel" => bool1 d.isParallel
  | "is_final" => bool1 d.isFinal
  | "is_history" => bool1 d.isHistory
  | "is_compound_or_root" => bool1 d.isCompoundOrRoot
  | "display" => do pure (.str ("#" ++ toString (← ref "a")))
  | "transition_matches" =>
    match q.read? "t" Value.asNat? with
    | some t =>
      if t < d.transitions.size then pure (.bool ((d.transition t).matches (str q "name")))
      else .error "no such transition"
    | none => .error "needs t"
  | "is_empty" => pure (.bool false)
  | "state" => do pure (.str (d.name (← ref "a")))
  | "state_by_id" => do
    let id ← need "id" "state_by_id needs id"
    pure (opt (fun s => .num (.nat (d.state s).order)) (d.lookup id))
  | other => .error ("unknown query " ++ other)

/-- `query`: the answer to each query on a compiled document. -/
def query (v : Value) : Value :=
  match compileDoc v with
  | .error err => err.toValue
  | .ok d =>
    answer [("answers", .arr ((((v.get? "queries").map Value.items).getD []).map fun q =>
      match queryValue d q with
      | .ok x => answer [("value", x)]
      | .error message => badInput message))]

/-- `debug`: dumps of described states, a compiled document and its invocation sources,
content, a guard, and the registry and hooks of the request, read in the order described
states, document, registry, content, guard. The described states are dumped only when
`schemas` is a list. -/
def debug (v : Value) : Value :=
  let run : Describe Value := do
    let schemas ← match v.get? "schemas" with
      | some (.arr ss) => do
        let bound := Describe.nestingBound (.arr ss) (← get).sources
        some <$> ss.mapM (Describe.state bound)
      | _ => pure none
    let doc ← match v.get? "doc" with
      | some dv => some <$> Machines.compile dv
      | none => pure none
    let (hooks, registry) ← registryOf v
    let commands ← Describe.lift (Command.memberOf v "commands")
    let guard ← Describe.guardOf v "guard"
    pure (answer (
      (match schemas with
        | some ss => [("schemas", .arr (ss.map fun s =>
            .obj [("id", .str s.id), ("kind", .str s.kind.dump)]))]
        | none => []) ++
      (match doc with
        | some d => [("document", .str d.dump),
            ("invoke_sources", strs (d.invokes.toList.map (·.source.dump)))]
        | none => []) ++
      [("commands", strs (commands.map Command.dump))] ++
      (match guard with
        | some _ => [("guard", .str "Guard(..)")]
        | none => []) ++
      [("registry", .str registry.dump), ("hooks", .str hooks.dump)]))
  match describe v run with
  | .ok x => x
  | .error err => err.toValue

end Request
end Hsm
