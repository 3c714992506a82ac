import TreeTally.Background.Owner
import TreeTally.Background.Worker
import TreeTally.Command.Run
import TreeTally.Disk.Count
import TreeTally.Handles
import TreeTally.Main
import TreeTally.Memory.Count
import TreeTally.Log.Line
import TreeTally.Proofs.Path.Parts
import TreeTally.Proofs.Walk.Roots
import TreeTally.Proofs.Memory.Builders
import TreeTally.Proofs.Memory.Sight
import TreeTally.Proofs.Memory.Count
import TreeTally.Proofs.Walk.Interrupt
import TreeTally.Proofs.Background.Script
import TreeTally.Proofs.Background.View
import TreeTally.Proofs.Background.JobStep
import TreeTally.Proofs.Background.Phase
import TreeTally.Proofs.Background.Token
import TreeTally.Proofs.Background.Cancel
import TreeTally.Proofs.Background.Refine
import TreeTally.Proofs.Background.Lifecycle
import TreeTally.Proofs.Walk.Growth
import TreeTally.Proofs.Background.Delivery
import TreeTally.Proofs.Walk.Keyed
import TreeTally.Proofs.Memory.Finite
import TreeTally.Proofs.Memory.Link
import TreeTally.Proofs.Throttle
import TreeTally.Proofs.Walk.Moments
import TreeTally.Proofs.Walk.Ended
import TreeTally.Proofs.Walk.Accounts
import TreeTally.Proofs.Walk.Timing
import TreeTally.Proofs.Walk.Shuffle
import TreeTally.Proofs.Walk.Shares
import TreeTally.Proofs.Background.Mail
import TreeTally.Proofs.Background.Edit
import TreeTally.Proofs.Background.Breadth
import TreeTally.Proofs.Background.Completion
import TreeTally.Proofs.Background.Desk
import TreeTally.Proofs.Background.Notices
import TreeTally.Proofs.Background.Mirror
import TreeTally.Proofs.Background.Lanes
import TreeTally.Proofs.Background.Steps
import TreeTally.Proofs.Disk.Route
import TreeTally.Proofs.Disk.Listing
import TreeTally.Proofs.Walk.Levels
import TreeTally.Proofs.Disk.Follow
import TreeTally.Proofs.Walk.Outline
import TreeTally.Proofs.Disk.Outline
import TreeTally.Proofs.Memory.Outline
import TreeTally.Proofs.Agreement
import TreeTally.Proofs.Text.Decimal
import TreeTally.Proofs.Command.Grammar
import TreeTally.Proofs.Command.Turns
import TreeTally.Proofs.Command.Count
import TreeTally.Proofs.Command.Deadline
import TreeTally.Proofs.Handles.Script
import TreeTally.Proofs.Handles.Offices
import TreeTally.Proofs.Handles.Sound
import TreeTally.Proofs.Handles.Errors
import TreeTally.Proofs.Handles.Served
import TreeTally.Proofs.Handles.Callbacks
import TreeTally.Proofs.Memory.Truthful
import TreeTally.Proofs.Memory.Answers
import TreeTally.Proofs.Walk.Withheld
import TreeTally.Proofs.Memory.Marks
import TreeTally.Proofs.Walk.Respelled
import TreeTally.Proofs.Memory.Spelling
import TreeTally.Proofs.Throttle.Diary
import TreeTally.Proofs.Memory.Hops
import TreeTally.Proofs.Text.Utf8
import TreeTally.Proofs.Handles.Roots
import TreeTally.Proofs.Walk.Reworded
import TreeTally.Proofs.Memory.Effects
import TreeTally.Proofs.Memory.Order
import TreeTally.Text.Json
import TreeTally.Proofs.Text.Json
import TreeTally.Proofs.Command.Report
import TreeTally.Proofs.Text.Order
import TreeTally.Proofs.Disk.Folder
import TreeTally.Proofs.Memory.Keys
