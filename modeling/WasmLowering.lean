import WasmLowering.Ir.Draft
import WasmLowering.Main
import WasmLowering.Proofs.Leb
import WasmLowering.Proofs.Reader
import WasmLowering.Proofs.Emission
import WasmLowering.Proofs.Reference
import WasmLowering.Proofs.Lowering
import WasmLowering.Proofs.Generation
import WasmLowering.Proofs.Decoding
import WasmLowering.Proofs.Linking
import WasmLowering.Proofs.Discipline
import WasmLowering.Proofs.Semantics
import WasmLowering.Proofs.Simulation
import WasmLowering.Proofs.Delivery
import WasmLowering.Proofs.TypeEntry
import WasmLowering.Proofs.Acceptance
import WasmLowering.Proofs.Splits
import WasmLowering.Proofs.Relocations
import WasmLowering.Proofs.SignedRange
import WasmLowering.Proofs.SlotOrder
import WasmLowering.Proofs.Height
import WasmLowering.Proofs.Publication
import WasmLowering.Proofs.WellFormed
import WasmLowering.Proofs.Abort
import WasmLowering.Proofs.Isolation
import WasmLowering.Proofs.Rounding
import WasmLowering.Proofs.Constants
import WasmLowering.Proofs.Dangling
import WasmLowering.Proofs.Grammar
import WasmLowering.Proofs.CodeSection
import WasmLowering.Proofs.OneShot
import WasmLowering.Proofs.Decimal
import WasmLowering.Proofs.JsonText
import WasmLowering.Proofs.JsonShape
import WasmLowering.Proofs.ModuleText
import WasmLowering.Proofs.Command
import WasmLowering.Proofs.Stages
import WasmLowering.Proofs.FirstFailure
import WasmLowering.Proofs.LocalAccess
import WasmLowering.Proofs.Lockstep
import WasmLowering.Proofs.Renumbering
import WasmLowering.Proofs.Marks
import WasmLowering.Proofs.TypeSection
import WasmLowering.Proofs.Truncation
import WasmLowering.Proofs.SoundBlocks
import WasmLowering.Proofs.Drafts
import WasmLowering.Proofs.TypeText
import WasmLowering.Proofs.ValueMap
import WasmLowering.Proofs.UnsignedForms
import WasmLowering.Proofs.SignedForms
