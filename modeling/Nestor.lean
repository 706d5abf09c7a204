import Nestor.Engine.Theorems.Inserted
import Nestor.Engine.Theorems.Invalidate
import Nestor.Engine.Theorems.Isolation
import Nestor.Engine.Theorems.Objects
import Nestor.Engine.Theorems.Reported
import Nestor.Engine.Theorems.Resized
import Nestor.Engine.Theorems.Staleness
import Nestor.Engine.Theorems.Versions
import Nestor.Engine.Theorems.Waits
import Nestor.Engine.Theorems.Warm
import Nestor.Engine.Theorems.Writes
import Nestor.Fetch.Theorems.Deadline
import Nestor.Fetch.Theorems.Groups
import Nestor.Fetch.Theorems.Resume
import Nestor.Fetch.Theorems.Sharing
import Nestor.Body.Theorems
import Nestor.Body.Theorems.Stream
import Nestor.Core.Theorems.Block
import Nestor.Core.Theorems.Code
import Nestor.Core.Theorems.Quantile
import Nestor.Cache.Theorems
import Nestor.Cli.Theorems
import Nestor.Client.Theorems.Health
import Nestor.Client.Theorems.Hedged
import Nestor.Client.Theorems.Load
import Nestor.Client.Theorems.Membership
import Nestor.Client.Theorems.Read
import Nestor.Policy.Theorems
import Nestor.Read.Theorems.Indexes
import Nestor.Read.Theorems.Window
import Nestor.Read.Theorems.PastEnd
import Nestor.S3.Theorems.Auth
import Nestor.S3.Theorems.Canonical
import Nestor.S3.Theorems.Chunked
import Nestor.S3.Theorems.Conditions
import Nestor.S3.Theorems.Delete
import Nestor.S3.Theorems.Errors
import Nestor.S3.Theorems.Ranges
import Nestor.S3.Theorems.Populate
import Nestor.S3.Theorems.Proxy
import Nestor.S3.Theorems.Serve
import Nestor.Inflight.Refinement
import Nestor.Inflight.Theorems
import Nestor.Store.Theorems.Serial
