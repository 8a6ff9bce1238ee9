import Lookahead.CharStream.Opening
import Lookahead.CharStream.Request
import Lookahead.Interval.Shared
import Lookahead.Json
import Lookahead.LandingRule.Rules
import Lookahead.Proofs.CharStream.Characters
import Lookahead.Proofs.CharStream.Pieces
import Lookahead.Proofs.CharStream.Tail
import Lookahead.Proofs.CharStream.Text
import Lookahead.Proofs.CharStream.Width
import Lookahead.Proofs.CodeBuffer.Refusal
import Lookahead.Proofs.CodeBuffer.Text
import Lookahead.Proofs.CodeBuffer.Width
import Lookahead.Proofs.SymbolCursor.Contract
import Lookahead.Proofs.SymbolCursor.Restore
import Lookahead.Proofs.Tape.Nearest
import Lookahead.Proofs.TokenSource.Cutting
import Lookahead.Proofs.TokenStream.ChannelCursor
import Lookahead.Proofs.TokenStream.Checked
import Lookahead.Proofs.TokenStream.Conforming
import Lookahead.Proofs.TokenStream.Consultation
import Lookahead.Proofs.TokenStream.Consume
import Lookahead.Proofs.TokenStream.Demand
import Lookahead.Proofs.TokenStream.Draining
import Lookahead.Proofs.TokenStream.Gap
import Lookahead.Proofs.TokenStream.Index
import Lookahead.Proofs.TokenStream.Lexing
import Lookahead.Proofs.TokenStream.Looking
import Lookahead.Proofs.TokenStream.Numbering
import Lookahead.Proofs.TokenStream.Prefetch
import Lookahead.Proofs.TokenStream.Priming
import Lookahead.Proofs.TokenStream.Range
import Lookahead.Proofs.TokenStream.Refusal
import Lookahead.Proofs.TokenStream.Resting
import Lookahead.Proofs.TokenStream.Trivia
import Lookahead.Token.Dump
import Lookahead.TokenSource.Listed
import Lookahead.TokenSource.Numbered
import Lookahead.TokenSource.Replay
import Lookahead.TokenSource.Words
import Lookahead.TokenStream.Inspection
import Lookahead.TokenStream.Request
import Lookahead.Proofs.CodeBuffer.Checked
import Lookahead.Proofs.CodeBuffer.Promotion
import Lookahead.Proofs.Interval.Overlap
import Lookahead.Proofs.Interval.Hull
import Lookahead.Proofs.Interval.Length
import Lookahead.Proofs.Token.Dump
import Lookahead.Proofs.CharStream.Checked
import Lookahead.Proofs.Tape.Journal
import Lookahead.Proofs.TokenStream.Journal
