import PhysicalMemory.Operation
import PhysicalMemory.Arena.Shared
import PhysicalMemory.Proofs.Bytes
import PhysicalMemory.Proofs.Claims.Insertion
import PhysicalMemory.Proofs.Claims.FirstFit
import PhysicalMemory.Proofs.Claims.Form
import PhysicalMemory.Proofs.Pages
import PhysicalMemory.Proofs.Arena.Growth
import PhysicalMemory.Proofs.Firmware.Audit
import PhysicalMemory.Proofs.Firmware.Coverage
import PhysicalMemory.Proofs.Firmware.Withholding
import PhysicalMemory.Proofs.Runs
import PhysicalMemory.Proofs.Firmware.Exactness
import PhysicalMemory.Proofs.Boot.Runs
import PhysicalMemory.Proofs.Boot.Safety
import PhysicalMemory.Proofs.Claims.CanonicalForm
import PhysicalMemory.Proofs.Claims.Room
import PhysicalMemory.Proofs.Leads
import PhysicalMemory.Proofs.Sorting
import PhysicalMemory.Proofs.Claims.Orders
import PhysicalMemory.Proofs.Firmware.Collapsing
import PhysicalMemory.Proofs.Arena.Reservation
import PhysicalMemory.Proofs.Firmware.Merging
import PhysicalMemory.Proofs.Firmware.Reordering
import PhysicalMemory.Proofs.Firmware.EmptyRegions
import PhysicalMemory.Proofs.Firmware.Failures
import PhysicalMemory.Proofs.Boot.Errors
import PhysicalMemory.Proofs.Checked.Slots
import PhysicalMemory.Proofs.Checked.Sorting
import PhysicalMemory.Proofs.Checked.Action
import PhysicalMemory.Proofs.Checked.Claims
import PhysicalMemory.Proofs.Checked.Arena
import PhysicalMemory.Proofs.Checked.Firmware
import PhysicalMemory.Proofs.Checked.Runs
import PhysicalMemory.Proofs.Arena.Claiming
import PhysicalMemory.Proofs.Arena.WholePages
import PhysicalMemory.Proofs.Firmware.CanonicalMaps
import PhysicalMemory.Proofs.Arena.Reclaiming
import PhysicalMemory.Proofs.Firmware.Accounting
import PhysicalMemory.Proofs.Firmware.Findings
import PhysicalMemory.Proofs.Arena.Searching
import PhysicalMemory.Proofs.Intervals
import PhysicalMemory.Proofs.Text.Sizes
import PhysicalMemory.Proofs.Text.Extents
import PhysicalMemory.Proofs.Checked.Spare
