import ScriptModel.Script
import ScriptModel.Includes.Log
import ScriptModel.Proofs.Machine.Lock
import ScriptModel.Proofs.Machine.Termination
import ScriptModel.Proofs.Machine.Delegation
import ScriptModel.Proofs.Machine.Transparency
import ScriptModel.Proofs.Machine.Prototypes
import ScriptModel.Proofs.Machine.Gate
import ScriptModel.Proofs.Machine.Spreading
import ScriptModel.Proofs.Machine.Capture
import ScriptModel.Proofs.Machine.Assignment
import ScriptModel.Proofs.Machine.InstanceTest
import ScriptModel.Proofs.Heap.Lookup
import ScriptModel.Proofs.Machine.Installation
import ScriptModel.Proofs.Machine.KeyOrder
import ScriptModel.Proofs.Machine.Closed
import ScriptModel.Proofs.Machine.Instances
import ScriptModel.Proofs.Machine.Listing
import ScriptModel.Proofs.Machine.BoundLength
import ScriptModel.Proofs.Object.Edit
import ScriptModel.Proofs.Heap.Edit
import ScriptModel.Proofs.Machine.Commutation
import ScriptModel.Proofs.Machine.Naming
import ScriptModel.Proofs.Number.Numeral
import ScriptModel.Proofs.Number.Rounding
import ScriptModel.Proofs.Number.Word
import ScriptModel.Proofs.Property.Equality
import ScriptModel.Proofs.Includes.Summary
import ScriptModel.Proofs.Includes.Table
import ScriptModel.Proofs.Includes.Log
