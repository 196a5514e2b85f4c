import LsmTree.Faults
import LsmTree.PowerLossRuns

/-!
# A log that comes back

The removal of the log is not synced. After a power loss the log that a flush has
removed can be found again, without some of its records: those that no `fdatasync` has
covered. It is read over the tables that were made of it, and where the last record of a
key is lost but an earlier one is not, the earlier value comes back.

So a flush that has returned is lasting exactly if no such record is in its log.
-/

namespace LsmTree.PowerLoss
open Faults LittleEndian LayeredMap Merge Table StableStorage Transition

/-! ### Records that come back -/

end LsmTree.PowerLoss
