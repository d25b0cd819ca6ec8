import KermlText.Parse
import KermlText.Tree.Render
import KermlText.Tree.Shape
import KermlText.Proofs.Stretch
import KermlText.Proofs.Trials
import KermlText.Proofs.Decisions
import KermlText.Proofs.Actions
import KermlText.Proofs.Runs
import KermlText.Proofs.Answers
import KermlText.Proofs.Invariants
import KermlText.Proofs.Termination
import KermlText.Proofs.Cascades
import KermlText.Proofs.Thinned
import KermlText.Proofs.Twins
import KermlText.Proofs.TwinDecisions
import KermlText.Proofs.Mirrors
import KermlText.Proofs.Comments
import KermlText.Proofs.Paths
import KermlText.Proofs.Lossless
import KermlText.Proofs.Marks
import KermlText.Proofs.Derivation
import KermlText.Proofs.Acceptance
import KermlText.Proofs.Precedence
import KermlText.Proofs.Ahead
import KermlText.Proofs.Patterns
import KermlText.Proofs.Starts
import KermlText.Proofs.Greedy
import KermlText.Proofs.Foresight
import KermlText.Proofs.Choices
import KermlText.Proofs.Smooth
import KermlText.Proofs.Apart
import KermlText.Proofs.Rereading
import KermlText.Proofs.Overlaps
import KermlText.Proofs.Settled
import KermlText.Proofs.Completeness
import KermlText.Proofs.Unique
import KermlText.Proofs.Cancellation
import KermlText.Proofs.Reached
import KermlText.Proofs.Recall
import KermlText.Proofs.Caching
import KermlText.Proofs.Horizons
import KermlText.Proofs.Arrows
import KermlText.Proofs.Likeness
import KermlText.Proofs.Respelled
import KermlText.Proofs.Wordings
import KermlText.Proofs.Truncation
import KermlText.Proofs.Locations
import KermlText.Proofs.Hidden
import KermlText.Proofs.Scanning
import KermlText.Proofs.Remade
import KermlText.Proofs.Synonyms
import KermlText.Proofs.Abreast
import KermlText.Proofs.Rounds
import KermlText.Proofs.Queries
import KermlText.Proofs.Outlook
import KermlText.Proofs.Attempts
import KermlText.Proofs.Retraced
import KermlText.Proofs.Afresh
import KermlText.Proofs.Annotated
import KermlText.Proofs.Onsets
import KermlText.Proofs.Commitments
import KermlText.Proofs.Guided
import KermlText.Proofs.Saturation
import KermlText.Proofs.LeastSets
import KermlText.Proofs.Finality
import KermlText.Proofs.Ample
import KermlText.Proofs.Heads
import KermlText.Proofs.Untested
import KermlText.Proofs.Forward
import KermlText.Proofs.Circles
import KermlText.Proofs.Endings
import KermlText.Proofs.Sites
import KermlText.Proofs.Followers
import KermlText.Proofs.Suppression
import KermlText.Proofs.Sparing
import KermlText.Proofs.Standstill
import KermlText.Proofs.Consistency
import KermlText.Proofs.Terminators
import KermlText.Proofs.Rescanning
import KermlText.Proofs.Chains
import KermlText.Proofs.Excerpts
import KermlText.Proofs.Fragments
import KermlText.Proofs.Words
import KermlText.Proofs.Cursors
import KermlText.Proofs.Building
import KermlText.Proofs.Fields
