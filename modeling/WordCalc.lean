import WordCalc.Token.Order
import WordCalc.Calculation.Log
import WordCalc.Main
import WordCalc.Proofs.Expression
import WordCalc.Proofs.Decoding
import WordCalc.Proofs.Evaluation
import WordCalc.Proofs.Grouping
import WordCalc.Proofs.Scanning
import WordCalc.Proofs.Balance
import WordCalc.Proofs.Unmatched
import WordCalc.Proofs.Conservation
import WordCalc.Proofs.Grammar
import WordCalc.Proofs.Fetching
import WordCalc.Proofs.Encoding
import WordCalc.Proofs.Counter
import WordCalc.Proofs.Range
import WordCalc.Proofs.Conversation
import WordCalc.Proofs.Capacity
import WordCalc.Proofs.History
import WordCalc.Proofs.Numerals
import WordCalc.Proofs.Slices
import WordCalc.Proofs.TreeCode
import WordCalc.Proofs.Context
import WordCalc.Proofs.Continuation
import WordCalc.Proofs.Blanks
import WordCalc.Proofs.Records
import WordCalc.Proofs.Rendering
import WordCalc.Proofs.Transcript
import WordCalc.Proofs.Encodable
import WordCalc.Proofs.Carets
import WordCalc.Proofs.Excerpts
import WordCalc.Proofs.Hexadecimals
import WordCalc.Proofs.Listing
import WordCalc.Proofs.Calls
import WordCalc.Proofs.HexText
import WordCalc.Proofs.Ordering
import WordCalc.Proofs.Waiting
