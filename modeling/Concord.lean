import Concord.Main
import Concord.Proofs.Anchors
import Concord.Proofs.AttachedHints
import Concord.Proofs.BlockEnds
import Concord.Proofs.CommentLines
import Concord.Proofs.Faults
import Concord.Proofs.InheritedMembers
import Concord.Proofs.LiteralEntries
import Concord.Proofs.Locations
import Concord.Proofs.MergeLaws
import Concord.Proofs.Omissions
import Concord.Proofs.OrderFree
import Concord.Proofs.OwnPaths
import Concord.Proofs.Queries
import Concord.Proofs.Records
import Concord.Proofs.References
import Concord.Proofs.StatusCodes
import Concord.Proofs.Synonyms
import Concord.Proofs.TestCode
import Concord.Proofs.ToldUnits
import Concord.Proofs.TopLevel
import Concord.Proofs.TypeSplits
import Concord.Proofs.Unions
import Concord.Proofs.UnitUses
import Concord.Proofs.WrittenReferences
import Concord.Proofs.WrittenTypes
