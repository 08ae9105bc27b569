import DiceFormula.Main
import DiceFormula.Proofs.Roll.Arithmetic
import DiceFormula.Proofs.Roll.Record
import DiceFormula.Proofs.Roll.Stop
import DiceFormula.Registry
import DiceFormula.Roll.Tooltip
import DiceFormula.Term.Determinism
import DiceFormula.Proofs.Arithmetic.Precedence
import DiceFormula.Proofs.Evaluation.Draws
import DiceFormula.Proofs.Evaluation.Passes
import DiceFormula.Proofs.Formula.Alternation
import DiceFormula.Proofs.Roll.Settling
import DiceFormula.Proofs.Evaluation.Count
import DiceFormula.Proofs.Evaluation.Dealt
import DiceFormula.Proofs.Roll.Dice
import DiceFormula.Proofs.Evaluation.Advance
import DiceFormula.Proofs.Roll.Session
import DiceFormula.Proofs.Number.Rounding
import DiceFormula.Proofs.Result.Ranking
import DiceFormula.Proofs.Evaluation.Selecting
import DiceFormula.Proofs.Evaluation.Bounds
import DiceFormula.Proofs.Roll.Bounds
import DiceFormula.Proofs.Roll.Determinism
import DiceFormula.Proofs.Formula.Reprinting
import DiceFormula.Proofs.Evaluation.Loops
import DiceFormula.Proofs.Roll.Pools
import DiceFormula.Proofs.Term.Stop
import DiceFormula.Proofs.Roll.Failure
import DiceFormula.Proofs.Evaluation.Matching
import DiceFormula.Proofs.Term.History
import DiceFormula.Proofs.Term.Marks
import DiceFormula.Proofs.Term.Normal
import DiceFormula.Proofs.Term.Score
import DiceFormula.Proofs.Roll.Altering
import DiceFormula.Proofs.Formula.Decimals
import DiceFormula.Proofs.Roll.Symbols
import DiceFormula.Proofs.Formula.Splitting
import DiceFormula.Proofs.Formula.Tokens
import DiceFormula.Proofs.Formula.Outline
