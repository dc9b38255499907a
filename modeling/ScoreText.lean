import ScoreText.Live.Cue
import ScoreText.Live.Player
import ScoreText.Main
import ScoreText.Midi
import ScoreText.Notation.ChordReader
import ScoreText.Proofs.Live.Agenda
import ScoreText.Proofs.Live.Ledger
import ScoreText.Proofs.Live.OnTime
import ScoreText.Proofs.Sequence.Insertion
import ScoreText.Proofs.Sequence.Pairing
import ScoreText.Proofs.Sequence.Grouping
import ScoreText.Proofs.Timeline.Cursor
import ScoreText.Proofs.Sequence.Retelling
import ScoreText.Proofs.Sequence.RoundTrip
import ScoreText.Proofs.Text.Numerals
import ScoreText.Proofs.Expansion.Calls
import ScoreText.Proofs.Expansion.Captions
import ScoreText.Proofs.Expansion.Joining
import ScoreText.Proofs.Expansion.Nesting
import ScoreText.Proofs.Expansion.Braces
import ScoreText.Proofs.Notation.Announced
import ScoreText.Proofs.Notation.Calls
import ScoreText.Proofs.Notation.Dyadic
import ScoreText.Proofs.Notation.Likeness
import ScoreText.Proofs.Notation.Rereading
import ScoreText.Proofs.Sequence.Ranges
import ScoreText.Proofs.Sequence.Rehearing
import ScoreText.Proofs.Sequence.Renotation
import ScoreText.Proofs.Sequence.InStep
import ScoreText.Proofs.Notation.Composing
import ScoreText.Proofs.Live.Concert
import ScoreText.Proofs.Sequence.Bounds
import ScoreText.Proofs.Notation.Strictness
import ScoreText.Proofs.Notation.Setup
import ScoreText.Proofs.Sequence.Matching
import ScoreText.Proofs.Live.Glides
import ScoreText.Proofs.Live.Stopping
import ScoreText.Proofs.Sequence.Voices
import ScoreText.Proofs.Live.Idleness
import ScoreText.Proofs.Live.Withdrawing
import ScoreText.Proofs.Bus.Firing
import ScoreText.Proofs.Notation.Verbatim
import ScoreText.Proofs.Sequence.Asking
import ScoreText.Proofs.Expansion.Settling
import ScoreText.Proofs.Notation.Spacing
import ScoreText.Proofs.Notation.Requests
import ScoreText.Proofs.Sequence.Forward
import ScoreText.Proofs.Notation.Identifying
import ScoreText.Proofs.Ornament.Filling
import ScoreText.Proofs.Notation.Decorated
import ScoreText.Proofs.Theory.Inversion
import ScoreText.Proofs.Notation.Lines
import ScoreText.Proofs.Notation.Octaves
import ScoreText.Proofs.Sequence.Searching
import ScoreText.Proofs.Live.Courses
import ScoreText.Proofs.Bytes.Failing
import ScoreText.Proofs.Bytes.Dispatching
import ScoreText.Proofs.Bytes.Classifying
import ScoreText.Proofs.Bytes.Messages
import ScoreText.Proofs.Bytes.Fronts
import ScoreText.Proofs.Expansion.Spans
import ScoreText.Proofs.Live.Reprise
import ScoreText.Proofs.Sequence.Tying
import ScoreText.Proofs.Sequence.Tempos
import ScoreText.Proofs.Sequence.Queues
import ScoreText.Proofs.Theory.NameOrder
import ScoreText.Proofs.Live.Ramping
