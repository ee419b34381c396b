import FiberStacks.Session.Chains

/-!
# Scans of a session
-/

namespace FiberStacks.Session

inductive ScanStart where
  | domain (i : Nat)
  | chain (r : ChainRef)
  | tables (tables : List (List Word)) (r : ChainRef)

/-- Scan, and return the visits. The collector of the scanner decides what is overwritten. -/
def scan (sc : Scanner) (registers : Option Nat) (start : ScanStart) : SessionM (List Visit) := do
  let (chain, report) ← match start with
    | .domain i => do
      let d ← domain i
      let report ← d.scanRoots sc registers
      pure (d.running, report)
    | .chain r => do
      let chain ← chainAt r
      let report ← Machine.scanRoots sc [] registers chain
      pure (chain, report)
    | .tables tables r => do
      let tables ← tables.mapM reserve
      modify fun s => { s with rootTables := tables }
      let chain ← chainAt r
      let report ← Machine.scanRoots sc (tables.map Stretch.slots) registers chain
      pure (chain, report)
  match report.ending with
  | .ok () => return report.visits
  | .error cause => throw (.scanAborted cause report.visits chain[report.segments]?)

end FiberStacks.Session
