import Microboard.Instruction.Written
import Microboard.Main
import Microboard.Program.Evaluation
import Microboard.Proofs.Console.Session
import Microboard.Proofs.Console.Ticks
import Microboard.Proofs.Firmware.Appending
import Microboard.Proofs.Firmware.Freshness
import Microboard.Proofs.Firmware.Literals
import Microboard.Proofs.Firmware.Preservation
import Microboard.Proofs.Firmware.Termination
import Microboard.Proofs.Firmware.Waypoints
import Microboard.Proofs.Flash.Loads
import Microboard.Proofs.Listing.Text
import Microboard.Proofs.Machine.Bounds
import Microboard.Proofs.Machine.Failing
import Microboard.Proofs.Machine.Pins
import Microboard.Proofs.Machine.Reload
import Microboard.Proofs.Machine.Reports
import Microboard.Proofs.Machine.Surplus
import Microboard.Proofs.Machine.Unknown
import Microboard.Proofs.Machine.Waiting
import Microboard.Proofs.Panel.Edges
import Microboard.Proofs.Panel.Layout
import Microboard.Proofs.Program.Canonical
import Microboard.Proofs.Settings.Fields
import Microboard.Proofs.Settings.Override
import Microboard.Proofs.Workbench.Comparisons
import Microboard.Settings.Written
