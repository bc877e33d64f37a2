import FormatterPlan.CommandLine.FileTree
import FormatterPlan.Main
import FormatterPlan.Proofs.AssumedTypes
import FormatterPlan.Proofs.BaseWalks
import FormatterPlan.Proofs.BlockedTargets
import FormatterPlan.Proofs.ClosedTypes
import FormatterPlan.Proofs.DeclarationOrder
import FormatterPlan.Proofs.DeclaredTypes
import FormatterPlan.Proofs.FormatterOverrides
import FormatterPlan.Proofs.InheritedLayouts
import FormatterPlan.Proofs.Layouts
import FormatterPlan.Proofs.Lookup
import FormatterPlan.Proofs.MergedTables
import FormatterPlan.Proofs.MetadataNames
import FormatterPlan.Proofs.MonotoneOptions
import FormatterPlan.Proofs.OpenNodes
import FormatterPlan.Proofs.PrintedNames
import FormatterPlan.Proofs.RepeatedKeys
import FormatterPlan.Proofs.SettledChoices
import FormatterPlan.Proofs.SharedNodes
import FormatterPlan.Proofs.TextDecoding
import FormatterPlan.Proofs.Unification
import FormatterPlan.Proofs.UnionArms
import FormatterPlan.Proofs.UnmarkedLeaves
import FormatterPlan.Proofs.UnrelatedDocuments
import FormatterPlan.Proofs.UnresolvedParts
import FormatterPlan.Proofs.WireNumbers
import FormatterPlan.Proofs.Wording
import FormatterPlan.Proofs.WrittenMembers
