import SmatchFormal.Stree.Refinement
import SmatchFormal.Conditions.Unsound
import SmatchFormal.Comparison.Modify
import SmatchFormal.Flow.KnownSwitch
import SmatchFormal.Flow.CaseCover
import SmatchFormal.Extra.CanonicalForSound
import SmatchFormal.Flow.BalanceStmt
import SmatchFormal.Linearize.Switch
import SmatchFormal.Ir.CastSound
import SmatchFormal.Memops.Stores
import SmatchFormal.Domtree.FrontierSound
import SmatchFormal.Bitfield.Sound
import SmatchFormal.Preprocess.Termination
import SmatchFormal.Preprocess.HideSets
import SmatchFormal.Memops.Loads
import SmatchFormal.Liveness.Exact
import SmatchFormal.Phi.IfConvertSound
import SmatchFormal.Preprocess.GuardsSound
import SmatchFormal.Ptrlist.SortSound
import SmatchFormal.Extra.Increment
import SmatchFormal.Extra.ModuloSound
import SmatchFormal.Extra.MoveKnown
import SmatchFormal.Extra.CountDown
import SmatchFormal.Comparison.Assign
import SmatchFormal.Comparison.Lookup
import SmatchFormal.Ir.ArithSound
import SmatchFormal.RangeMath.RightShift
import SmatchFormal.Extra.Merge
import SmatchFormal.Params.Constraints
import SmatchFormal.Params.KeyText
import SmatchFormal.Params.SwapNames
import SmatchFormal.Params.KeyNames
import SmatchFormal.Params.CallMathFormat
import SmatchFormal.Tokenizer.NumberValue
import SmatchFormal.Tokenizer.Stringify
import SmatchFormal.Tokenizer.Buffers
import SmatchFormal.Related.EquivSound
import SmatchFormal.Alloc.Runs
import SmatchFormal.Bits.Walk
import SmatchFormal.Ranges.Terms
