import CodeReach.Directory
import CodeReach.Main
import CodeReach.Proofs.AcceptedMnemonics
import CodeReach.Proofs.Concatenation
import CodeReach.Proofs.DamagedLine
import CodeReach.Proofs.FailureTexts
import CodeReach.Proofs.ForeignSections
import CodeReach.Proofs.GroupedNumerals
import CodeReach.Proofs.JsonRecords
import CodeReach.Proofs.JsonRun
import CodeReach.Proofs.LinePieces
import CodeReach.Proofs.MnemonicGrowth
import CodeReach.Proofs.NewCall
import CodeReach.Proofs.ReachConsistency
import CodeReach.Proofs.SearchLog
import CodeReach.Proofs.SizeOrder
import CodeReach.Proofs.TrailingBlanks
