import PathSlice.CommandLine.Options
import PathSlice.Json.Basic
import PathSlice.Path.Printer
import PathSlice.Replay.Run
import PathSlice.Slice.Stores

/-! What a replay finds: the expectations that were not met and the stores at its end. -/
namespace PathSlice

structure Report where
  events : Nat
  failures : List String
  /-- Stores at constant addresses, by the written form of their site. -/
  concrete : List (String × List (UInt64 × Store))
  /-- Stores at symbolic addresses, by the written form of their site. -/
  symbolic : List (String × List Store)
  /-- The names of the shadows used. -/
  shadows : List String
  /-- The frames at the end, if asked for. -/
  dump : Option String

namespace Report

/-- Groups by the written form of their site, in its order. Of sites that are written alike the last
one stays. -/
def byText {α : Type} (gs : List (Store.Group α)) : List (String × List α) :=
  gs.foldl (fun acc g => Ascending.put (compareOn (·.1)) (g.site.render, g.stores) acc) []

private def storeJson (s : Store) : Json :=
  .object [("address", .text s.address.render), ("value", .text s.content.render)]

/-- The report as a JSON value, without the frames. -/
def toJson (r : Report) : Json :=
  .object
    [("events", .ofNat r.events),
     ("failed_expectations", .texts r.failures),
     ("stores", .object
       [("concrete", .object (r.concrete.map fun (site, stores) =>
          (site, .object (stores.map fun (n, s) => (toString n.toNat, storeJson s))))),
        ("symbolic", .object (r.symbolic.map fun (site, stores) =>
          (site, .array (stores.map storeJson)))),
        ("shadow_arrays", .texts r.shadows)])]

end Report

namespace Replay

open CommandLine (Options)

def finish (options : Options) (events : Nat) : Replaying Report := do
  let r ← get
  let (stores, session) := (r.state.path.stores r.state.marks !options.allStores) r.session
  modify fun r => { r with session := session }
  match stores with
  | .error fault => throw (.event events fault)
  | .ok stores => return {
      events := events
      failures := r.failures.reverse
      concrete := Report.byText (Store.concrete stores)
      symbolic := Report.byText (Store.symbolic stores)
      shadows := session.used.map (·.name)
      dump := if options.dump then some (r.state.path.render r.state.marks) else none }

/-- Replays a trace, the first free identity being `next`, and says which identity is free
afterwards. -/
def run (trace : Trace) (options : Options) (next : Nat) : Except ReplayFault (Report × Nat) :=
  match Program.ofDeclarations next trace.declarations with
  | .error e => .error (.name e)
  | .ok program =>
    let replaying : Replaying Report := do
      applyAll 0 trace.events
      finish options trace.events.length
    match replaying (start program (next + program.length) options.existential) with
    | (.ok report, r) => .ok (report, r.state.next)
    | (.error fault, _) => .error fault

end Replay

end PathSlice
