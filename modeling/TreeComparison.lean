import TreeComparison.Main
import TreeComparison.Proofs.Accumulation
import TreeComparison.Proofs.AgainstEmpty
import TreeComparison.Proofs.Agreement
import TreeComparison.Proofs.Comparators
import TreeComparison.Proofs.Confinement
import TreeComparison.Proofs.DigestChoice
import TreeComparison.Proofs.EndToEnd
import TreeComparison.Proofs.EscapedText
import TreeComparison.Proofs.History
import TreeComparison.Proofs.Labels
import TreeComparison.Proofs.ModeGate
import TreeComparison.Proofs.OptionsText
import TreeComparison.Proofs.ReportText
import TreeComparison.Proofs.SettingsText
import TreeComparison.Proofs.ShownValues
import TreeComparison.Proofs.SortedText
import TreeComparison.Proofs.Soundness
import TreeComparison.Proofs.Strictness
import TreeComparison.Proofs.Subruns
import TreeComparison.Proofs.SubtreeListing
import TreeComparison.Proofs.Swap
import TreeComparison.Proofs.TwoPasses
