import Srs.Incremental.MachOOwnershipPlan
import Srs.Incremental.MetadataUpdates
import Srs.StringMerging.PatchRecords
import Srs.Layout.TraversalCorrect
import Srs.Relaxation.InRange
import Srs.Relocation.ReadBack
import Srs.Resolution.Definitions
import Srs.Dynamic.HashTablesCorrect
import Srs.Dynamic.Versions
import Srs.Dynamic.Relocations
import Srs.Relocation.RiscVPairs
import Srs.Resolution.NonDynamicLookup
import Srs.EhFrame.Agreement
import Srs.Output.PartsCorrect
import Srs.ArtifactCache.Spellings
import Srs.Script.Evaluation
import Srs.Script.SymbolExpressions
import Srs.Script.VersionScriptTurns
import Srs.Dynamic.CopyRelocationOrder
import Srs.Publication.Exchange
import Srs.Publication.StandbyLinks
import Srs.MachO.CodeSignatureRefresh
import Srs.MachO.Retargeting
import Srs.MachO.FixupReservation
import Srs.MachO.UnwindLiveness
import Srs.Rlib.RmetaLinkAgreement
import Srs.Incremental.DynamicSlotsSafe
import Srs.Incremental.ArchiveFingerprintReuse
import Srs.Incremental.MachOArchiveRollbackSafe
import Srs.Layout.ThunkRange
import Srs.Relaxation.DeltaWords
import Srs.Relocation.Uleb128
import Srs.Relocation.WriteMasks
import Srs.Relocation.X86RelaxationBounds
import Srs.Layout.RelaxationLoop
import Srs.Incremental.HashedRanges
